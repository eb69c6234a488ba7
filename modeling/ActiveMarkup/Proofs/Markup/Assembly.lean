import ActiveMarkup.Proofs.Markup.Piece
set_option autoImplicit false

namespace ActiveMarkup.Markup

def Tree.ofElement (e : Element) (children : List Tree) : Tree :=
  .element e.tag e.attributes e.style children

def mapLast (f : Tree → Tree) : List Tree → List Tree
  | [] => []
  | [t] => [f t]
  | t :: next :: rest => t :: mapLast f (next :: rest)

def Tree.mapChildren (f : List Tree → List Tree) : Tree → Tree
  | .element tag attributes style children => .element tag attributes style (f children)
  | t => t

def addAt : Nat → Tree → List Tree → List Tree
  | 0, t, ts => ts ++ [t]
  | depth + 1, t, ts => mapLast (Tree.mapChildren (addAt depth t)) ts

def closeTags (tag : String) (tags : List String) : List String :=
  match tags.dropWhile fun open_tag => open_tag ≠ tag with
  | [] => tags
  | _ :: rest => rest

/-- The trees so far and the tags of the open elements, after one more piece. -/
def grow (state : List Tree × List String) (piece : Piece) : List Tree × List String :=
  let (trees, tags) := state
  match piece with
  | .comment s => (addAt tags.length (.comment s) trees, tags)
  | .text s => (addAt tags.length (.text s) trees, tags)
  | .leaf e => (addAt tags.length (.ofElement e []) trees, tags)
  | .verbatim e s =>
    (addAt tags.length (.ofElement e (if s = "" then [] else [.text s])) trees, tags)
  | .opening e => (addAt tags.length (.ofElement e []) trees, e.tag :: tags)
  | .closing tag => (trees, closeTags tag tags)

def assemble (pieces : List Piece) : List Tree :=
  (pieces.foldl grow ([], [])).1

def rawText : List Tree → String
  | [.text s] => s
  | _ => ""

mutual

def flatten : Tree → List Piece
  | .text s => [.text s]
  | .comment s => [.comment s]
  | .element tag attributes style children =>
    let e : Element := ⟨tag, attributes, style, []⟩
    if isVoidTag tag then [.leaf e]
    else if isRawTextTag tag then [.verbatim e (rawText children)]
    else .opening e :: (flattenAll children ++ [.closing tag])

def flattenAll : List Tree → List Piece
  | [] => []
  | t :: ts => flatten t ++ flattenAll ts

end

/-- A tree that can be written and read back, given what is asked of the children of an
element. -/
inductive Printable (apart : List Tree → Prop) : Tree → Prop where
  | text {s : String} : s ≠ "" → Printable apart (.text s)
  | comment {s : String} : (Piece.comment s).Sound → Printable apart (.comment s)
  | leaf {tag : String} {attributes style : Table String} :
      Writable ⟨tag, attributes, style, []⟩ → Printable apart (.element tag attributes style [])
  | raw {tag s : String} {attributes style : Table String} : s ≠ "" →
      (Piece.verbatim ⟨tag, attributes, style, []⟩ s).Sound →
      Printable apart (.element tag attributes style [.text s])
  | branch {tag : String} {attributes style : Table String} {children : List Tree} :
      (Piece.opening ⟨tag, attributes, style, []⟩).Sound → apart children →
      (∀ t ∈ children, Printable apart t) → Printable apart (.element tag attributes style children)

theorem mapLast_concat (f : Tree → Tree) (ts : List Tree) (t : Tree) :
    mapLast f (ts ++ [t]) = ts ++ [f t] := by
  induction ts with
  | nil => rfl
  | cons first rest ih =>
    cases rest with
    | nil => rfl
    | cons next rest => exact congrArg (first :: ·) ih

theorem mapLast_mapLast (f g : Tree → Tree) (ts : List Tree) :
    mapLast f (mapLast g ts) = mapLast (fun t => f (g t)) ts := by
  rcases List.eq_nil_or_concat ts with rfl | ⟨front, t, rfl⟩
  · rfl
  · rw [List.concat_eq_append, mapLast_concat, mapLast_concat, mapLast_concat]

theorem addAt_addAt (depth : Nat) (t : Tree) (ts : List Tree) (tag : String)
    (attributes style : Table String) (children : List Tree) :
    addAt (depth + 1) t (addAt depth (.element tag attributes style children) ts) =
      addAt depth (.element tag attributes style (children ++ [t])) ts := by
  induction depth generalizing ts with
  | zero => exact mapLast_concat _ ts _
  | succ depth ih =>
    rw [addAt, addAt, mapLast_mapLast, addAt]
    congr 1
    funext first
    cases first with
    | element tag' attributes' style' children' => exact congrArg _ (ih children')
    | text s => rfl
    | comment s => rfl

theorem closeTags_self (tag : String) (tags : List String) :
    closeTags tag (tag :: tags) = tags := by
  simp [closeTags]

theorem foldl_grow_flattenAll {ts : List Tree}
    (h : ∀ t ∈ ts, ∀ trees tags,
      (flatten t).foldl grow (trees, tags) = (addAt tags.length t trees, tags))
    (depth : Nat) (trees : List Tree) (tag : String) (attributes style : Table String)
    (children : List Tree) (tags : List String) (hdepth : tags.length = depth + 1) :
    (flattenAll ts).foldl grow (addAt depth (.element tag attributes style children) trees, tags) =
      (addAt depth (.element tag attributes style (children ++ ts)) trees, tags) := by
  induction ts generalizing children with
  | nil => simp [flattenAll]
  | cons t ts ih =>
    rw [flattenAll, List.foldl_append, h t List.mem_cons_self, hdepth, addAt_addAt,
      ih (fun t' ht' => h t' (List.mem_cons_of_mem _ ht')), List.append_assoc]
    rfl

theorem foldl_grow_branch {tag : String} {attributes style : Table String} {ts : List Tree}
    (hvoid : isVoidTag tag = false) (hraw : isRawTextTag tag = false)
    (h : ∀ t ∈ ts, ∀ trees tags,
      (flatten t).foldl grow (trees, tags) = (addAt tags.length t trees, tags))
    (trees : List Tree) (tags : List String) :
    (flatten (.element tag attributes style ts)).foldl grow (trees, tags) =
      (addAt tags.length (.element tag attributes style ts) trees, tags) := by
  have hchildren := foldl_grow_flattenAll h tags.length trees tag attributes style [] (tag :: tags)
    rfl
  simp only [flatten, hvoid, hraw, Bool.false_eq_true, if_false, List.foldl_cons,
    List.foldl_append, List.foldl_nil]
  change grow ((flattenAll ts).foldl grow
    (addAt tags.length (.element tag attributes style []) trees, tag :: tags)) _ = _
  rw [hchildren]
  simp only [grow, closeTags_self, List.nil_append]

theorem foldl_grow_flatten {apart : List Tree → Prop} {t : Tree} (h : Printable apart t)
    (trees : List Tree) (tags : List String) :
    (flatten t).foldl grow (trees, tags) = (addAt tags.length t trees, tags) := by
  induction h generalizing trees tags with
  | text => simp [flatten, grow]
  | comment => simp [flatten, grow]
  | @leaf tag attributes style hw =>
    cases hvoid : isVoidTag tag with
    | true => simp [flatten, hvoid, grow, Tree.ofElement]
    | false =>
      cases hraw : isRawTextTag tag with
      | true => simp [flatten, hvoid, hraw, grow, rawText, Tree.ofElement]
      | false => exact foldl_grow_branch hvoid hraw (by simp) trees tags
  | raw hs hv => simp [flatten, hv.2.1, hv.2.2.1, grow, rawText, Tree.ofElement, hs]
  | branch ho _ _ ih => exact foldl_grow_branch ho.2.1 ho.2.2 ih trees tags

/-- Writing trees out as pieces loses nothing. -/
theorem assemble_flattenAll {apart : List Tree → Prop} {ts : List Tree}
    (h : ∀ t ∈ ts, Printable apart t) : assemble (flattenAll ts) = ts := by
  have hfold : ∀ trees, (flattenAll ts).foldl grow (trees, []) = (trees ++ ts, []) := by
    induction ts with
    | nil => simp [flattenAll]
    | cons t ts ih =>
      intro trees
      rw [flattenAll, List.foldl_append, foldl_grow_flatten (h t List.mem_cons_self),
        ih fun t' ht' => h t' (List.mem_cons_of_mem _ ht')]
      simp [addAt]
  rw [assemble, hfold, List.nil_append]

abbrev Tree.Written : Tree → Prop :=
  Printable fun _ => True

def OpenBranch : Nat → List Tree → Prop
  | 0, _ => True
  | depth + 1, ts => ∃ front tag attributes style children,
      ts = front ++ [.element tag attributes style children] ∧
      (Piece.opening ⟨tag, attributes, style, []⟩).Sound ∧ OpenBranch depth children

theorem OpenBranch.mono {depth depth' : Nat} {ts : List Tree} (h : OpenBranch depth ts)
    (hle : depth' ≤ depth) : OpenBranch depth' ts := by
  induction depth' generalizing depth ts with
  | zero => trivial
  | succ depth' ih =>
    cases depth with
    | zero => omega
    | succ depth =>
      obtain ⟨front, tag, attributes, style, children, rfl, ho, hb⟩ := h
      exact ⟨front, tag, attributes, style, children, rfl, ho, ih hb (by omega)⟩

theorem Printable.children {apart : List Tree → Prop} {tag : String}
    {attributes style : Table String} {ts : List Tree}
    (h : Printable apart (.element tag attributes style ts)) (hraw : isRawTextTag tag = false) :
    ∀ t ∈ ts, Printable apart t := by
  cases h with
  | leaf _ => simp
  | raw _ hv =>
    have hr : isRawTextTag tag = true := hv.2.2.1
    rw [hraw] at hr
    cases hr
  | branch _ _ hall => exact hall

theorem addAt_written {depth : Nat} {t : Tree} {ts : List Tree} (ht : t.Written)
    (hts : ∀ t ∈ ts, t.Written) (hopen : OpenBranch depth ts) :
    (∀ t' ∈ addAt depth t ts, t'.Written) ∧ OpenBranch depth (addAt depth t ts) := by
  induction depth generalizing ts with
  | zero =>
    refine ⟨fun t' ht' => ?_, trivial⟩
    rcases List.mem_append.mp ht' with ht' | ht'
    · exact hts t' ht'
    · exact List.mem_singleton.mp ht' ▸ ht
  | succ depth ih =>
    obtain ⟨front, tag, attributes, style, children, rfl, ho, hb⟩ := hopen
    have hlast := hts _ (List.mem_append_right _ (List.mem_singleton_self _))
    obtain ⟨hall, hb'⟩ := ih (hlast.children ho.2.2) hb
    rw [addAt, mapLast_concat]
    refine ⟨fun t' ht' => ?_, front, tag, attributes, style, _, rfl, ho, hb'⟩
    rcases List.mem_append.mp ht' with ht' | ht'
    · exact hts t' (List.mem_append_left _ ht')
    · rw [List.mem_singleton.mp ht']
      exact .branch ho trivial hall

theorem OpenBranch.addAt_opening {depth : Nat} {ts : List Tree} {e : Element}
    (hopen : OpenBranch depth ts) (he : (Piece.opening ⟨e.tag, e.attributes, e.style, []⟩).Sound) :
    OpenBranch (depth + 1) (addAt depth (.ofElement e []) ts) := by
  induction depth generalizing ts with
  | zero => exact ⟨ts, e.tag, e.attributes, e.style, [], rfl, he, trivial⟩
  | succ depth ih =>
    obtain ⟨front, tag, attributes, style, children, rfl, ho, hb⟩ := hopen
    rw [addAt, mapLast_concat]
    exact ⟨front, tag, attributes, style, _, rfl, ho, ih hb⟩

theorem closeTags_length_le (tag : String) (tags : List String) :
    (closeTags tag tags).length ≤ tags.length := by
  unfold closeTags
  split
  · exact Nat.le_refl _
  next first rest hd =>
    have hle := (List.dropWhile_sublist (l := tags) fun open_tag => open_tag ≠ tag).length_le
    rw [hd, List.length_cons] at hle
    omega

theorem Writable.plain {e : Element} (h : Writable e) :
    Writable ⟨e.tag, e.attributes, e.style, []⟩ :=
  h.withData h.distinct h.names h.style

theorem grow_written {trees : List Tree} {tags : List String} {piece : Piece} (hp : piece.Sound)
    (htrees : ∀ t ∈ trees, t.Written) (hopen : OpenBranch tags.length trees) :
    (∀ t ∈ (grow (trees, tags) piece).1, t.Written) ∧
      OpenBranch (grow (trees, tags) piece).2.length (grow (trees, tags) piece).1 := by
  cases piece with
  | comment s => exact addAt_written (.comment hp) htrees hopen
  | text s => exact addAt_written (.text hp) htrees hopen
  | leaf e => exact addAt_written (.leaf (Writable.plain hp)) htrees hopen
  | verbatim e s =>
    obtain ⟨hw, hvoid, hraw, hno⟩ := hp
    refine addAt_written ?_ htrees hopen
    split
    · exact .leaf hw.plain
    next hs => exact .raw hs ⟨hw.plain, hvoid, hraw, hno⟩
  | opening e =>
    obtain ⟨hw, hvoid, hraw⟩ := hp
    have hleaf : (Tree.ofElement e []).Written := .leaf hw.plain
    exact ⟨(addAt_written hleaf htrees hopen).1,
      hopen.addAt_opening ⟨hw.plain, hvoid, hraw⟩⟩
  | closing tag => exact ⟨htrees, hopen.mono (closeTags_length_le tag tags)⟩

theorem assemble_written {pieces : List Piece} (h : ∀ p ∈ pieces, p.Sound) :
    ∀ t ∈ assemble pieces, t.Written := by
  have hfold : ∀ (state : List Tree × List String), (∀ t ∈ state.1, t.Written) →
      OpenBranch state.2.length state.1 → ∀ t ∈ (pieces.foldl grow state).1, t.Written := by
    induction pieces with
    | nil => exact fun _ hstate _ => hstate
    | cons piece rest ih =>
      intro state hstate hopen
      obtain ⟨hstate', hopen'⟩ := grow_written (h piece List.mem_cons_self) hstate hopen
      exact ih (fun p hp => h p (List.mem_cons_of_mem _ hp)) _ hstate' hopen'
  exact hfold ([], []) (by simp) trivial

end ActiveMarkup.Markup
