set_option autoImplicit false

namespace ActiveMarkup.Text

def byteSize (cs : List Char) : Nat :=
  cs.foldl (fun n c => n + c.utf8Size) 0

def cutAt (mark : Char) (cs : List Char) : Option (List Char × List Char) :=
  match cs.dropWhile (· != mark) with
  | [] => none
  | _ :: rest => some (cs.takeWhile (· != mark), rest)

def cutAtLast (mark : Char) (cs : List Char) : Option (List Char × List Char) :=
  (cutAt mark cs.reverse).map fun (after, before) => (before.reverse, after.reverse)

/-- The parts between the occurrences of a character, one more than there are occurrences. -/
def partsAt (mark : Char) : List Char → List (List Char)
  | [] => [[]]
  | c :: cs =>
    if c == mark then [] :: partsAt mark cs
    else
      match partsAt mark cs with
      | [] => [[c]]
      | part :: parts => (c :: part) :: parts

/-- The text before the first place where `starts` holds of what remains, and what remains there;
the whole text and nothing when there is no such place. -/
def breakWhere (starts : List Char → Bool) (before : List Char) : List Char → List Char × List Char
  | [] => (before.reverse, [])
  | c :: cs =>
    if starts (c :: cs) then (before.reverse, c :: cs)
    else breakWhere starts (c :: before) cs

def cutAtWord (word cs : List Char) : Option (List Char × List Char) :=
  match breakWhere (word.isPrefixOf ·) [] cs with
  | (_, []) => none
  | (before, rest) => some (before, rest.drop word.length)

def holdsWord (word : List Char) : List Char → Bool
  | [] => word.isEmpty
  | c :: cs => word.isPrefixOf (c :: cs) || holdsWord word cs

def sameIgnoringCase (a b : List Char) : Bool :=
  a.map Char.toLower == b.map Char.toLower

theorem cutAt_append {mark : Char} {cs before after : List Char}
    (h : cutAt mark cs = some (before, after)) : before ++ mark :: after = cs := by
  unfold cutAt at h
  split at h
  · simp at h
  · rename_i c rest hd
    simp only [Option.some.injEq, Prod.mk.injEq] at h
    obtain ⟨rfl, rfl⟩ := h
    have hm : c = mark := by
      have := List.head?_dropWhile_not (fun x => x != mark) cs
      rw [hd] at this
      simpa using this
    have := List.takeWhile_append_dropWhile (p := fun x => x != mark) (l := cs)
    rw [hd, hm] at this
    exact this

end ActiveMarkup.Text
