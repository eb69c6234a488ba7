import ActiveMarkup.Proofs.Text.Lowercase
import ActiveMarkup.Selector.Parser
set_option autoImplicit false

namespace ActiveMarkup.Selector

variable {cs rest : List Char} {c : Char}

structure IsName (cs : List Char) : Prop where
  nonempty : cs ≠ []
  chars : ∀ c ∈ cs, inName c = true

def AllBlank (cs : List Char) : Prop :=
  ∀ c ∈ cs, Text.isBlank c = true

inductive SpellsValue : List Char → String → Prop where
  | name {cs : List Char} : IsName cs → SpellsValue cs (String.ofList cs)
  | quoted {q : Char} {cs : List Char} : q = '"' ∨ q = '\'' → q ∉ cs →
      SpellsValue (q :: (cs ++ [q])) (String.ofList cs)

inductive SpellsTest : List Char → (String → AttributeTest) → Prop where
  | equals : SpellsTest ['='] .equals
  | includes : SpellsTest ['~', '='] .includes
  | begins : SpellsTest ['^', '='] .begins
  | ends : SpellsTest ['$', '='] .ends
  | contains : SpellsTest ['*', '='] .contains

inductive SpellsAttribute : List Char → String × AttributeTest → Prop where
  | present {w₁ name w₂ : List Char} : AllBlank w₁ → IsName name → AllBlank w₂ →
      SpellsAttribute (w₁ ++ (name ++ (w₂ ++ [']']))) ((String.ofList name).toLower, .present)
  | tested {w₁ name w₂ sign w₃ value w₄ : List Char} {test : String → AttributeTest} {v : String} :
      AllBlank w₁ → IsName name → AllBlank w₂ → SpellsTest sign test → AllBlank w₃ →
      SpellsValue value v → AllBlank w₄ →
      SpellsAttribute (w₁ ++ (name ++ (w₂ ++ (sign ++ (w₃ ++ (value ++ (w₄ ++ [']'])))))))
        ((String.ofList name).toLower, test v)

inductive SpellsConditions : Compound → List Char → Compound → Prop where
  | none {c : Compound} : SpellsConditions c [] c
  | identified {c c' : Compound} {name cs : List Char} : IsName name →
      SpellsConditions { c with id := some (String.ofList name) } cs c' →
      SpellsConditions c ('#' :: (name ++ cs)) c'
  | classed {c c' : Compound} {name cs : List Char} : IsName name →
      SpellsConditions { c with classes := c.classes ++ [String.ofList name] } cs c' →
      SpellsConditions c ('.' :: (name ++ cs)) c'
  | attributed {c c' : Compound} {inner cs : List Char} {condition : String × AttributeTest} :
      SpellsAttribute inner condition →
      SpellsConditions { c with attributes := c.attributes ++ [condition] } cs c' →
      SpellsConditions c ('[' :: (inner ++ cs)) c'

inductive SpellsCompound : List Char → Compound → Prop where
  | star {c : Compound} {cs : List Char} : SpellsConditions .any cs c → SpellsCompound ('*' :: cs) c
  | tag {c : Compound} {first : Char} {name cs : List Char} : first.isDigit = false →
      IsName (first :: name) →
      SpellsConditions { Compound.any with tag := some (String.ofList (first :: name)).toLower } cs
        c →
      SpellsCompound (first :: (name ++ cs)) c
  | bare {c : Compound} {cs : List Char} :
      cs ≠ [] → SpellsConditions .any cs c → SpellsCompound cs c

/-- What stands between two compounds: blanks alone, or an angle bracket among blanks and further
angle brackets. -/
inductive SpellsRelation : List Char → Relation → Prop where
  | descendant {c : Char} {w : List Char} : Text.isBlank c = true → AllBlank w →
      SpellsRelation (c :: w) .descendant
  | child {w more : List Char} : AllBlank w → (∀ c ∈ more, Text.isBlank c = true ∨ c = '>') →
      SpellsRelation (w ++ '>' :: more) .child

inductive Spells : List Char → Selector → Prop where
  | compound {cs : List Char} {c : Compound} : SpellsCompound cs c → Spells cs ⟨c, []⟩
  | extend {cs between cs' : List Char} {s : Selector} {relation : Relation} {c : Compound} :
      Spells cs s → SpellsRelation between relation → SpellsCompound cs' c →
      Spells (cs ++ (between ++ cs')) (s.extend relation c)

theorem of_isBlank {p : Char → Prop} (h : Text.isBlank c = true)
    (hcontrols : ∀ n : Fin 5, p (Char.ofNat (9 + n.val)))
    (hquads : ∀ n : Fin 11, p (Char.ofNat (0x2000 + n.val)))
    (hsingle : ∀ code ∈ [0x20, 0x85, 0xa0, 0x1680, 0x2028, 0x2029, 0x202f, 0x205f, 0x3000],
      p (Char.ofNat code)) : p c := by
  simp only [Text.isBlank, Bool.or_eq_true, Bool.and_eq_true, decide_eq_true_eq, beq_iff_eq] at h
  by_cases hcontrol : 9 ≤ c.toNat ∧ c.toNat ≤ 13
  · obtain ⟨n, rfl⟩ := Text.exists_ofNat 5 hcontrol.1 (by omega)
    exact hcontrols n
  by_cases hquad : 0x2000 ≤ c.toNat ∧ c.toNat ≤ 0x200a
  · obtain ⟨n, rfl⟩ := Text.exists_ofNat 11 hquad.1 (by omega)
    exact hquads n
  · have hcode : c.toNat ∈
        [0x20, 0x85, 0xa0, 0x1680, 0x2028, 0x2029, 0x202f, 0x205f, 0x3000] := by
      simp only [List.mem_cons, List.not_mem_nil, or_false]
      omega
    simpa [Char.ofNat_toNat] using hsingle _ hcode

/-- Characters of a name with the ranges as a list, which is faster to go through. -/
theorem inName_eq (c : Char) : inName c =
    ((if c.toNat < 0x80 then c.isAlphanum
      else Text.alphanumericRanges.toList.any fun range =>
        decide (range.1 ≤ c.toNat) && decide (c.toNat ≤ range.2)) || c == '-' || c == '_') := by
  rw [inName, Text.isAlphanumeric, Text.inRanges, Array.any_toList]

theorem inName_of_isBlank (h : Text.isBlank c = true) : inName c = false := by
  refine of_isBlank (p := fun c => inName c = false) h ?_ ?_ ?_ <;> simp only [inName_eq] <;>
    decide +kernel

theorem isBlank_of_inName (h : inName c = true) : Text.isBlank c = false := by
  refine Bool.eq_false_iff.mpr fun hb => ?_
  rw [inName_of_isBlank hb] at h
  cases h

theorem ne_of_inName {x : Char} (hx : inName x = false) (h : inName c = true) : c ≠ x := by
  rintro rfl
  rw [hx] at h
  cases h

theorem ne_of_isBlank {x : Char} (hx : Text.isBlank x = false) (h : Text.isBlank c = true) :
    c ≠ x := by
  rintro rfl
  rw [hx] at h
  cases h

def EndsName (rest : List Char) : Prop :=
  ∀ c ∈ rest.head?, inName c = false

/-- A text that goes on with a blank or an angle bracket, or not at all. -/
def EndsCompound (rest : List Char) : Prop :=
  ∀ c ∈ rest.head?, Text.isBlank c = true ∨ c = '>'

theorem EndsCompound.endsName (h : EndsCompound rest) : EndsName rest := by
  intro c hc
  rcases h c hc with hb | rfl
  · exact inName_of_isBlank hb
  · decide

theorem endsName_cons (h : inName c = false) : EndsName (c :: rest) := by
  simpa [EndsName] using h

theorem allBlank_nil : AllBlank [] :=
  List.forall_mem_nil _

theorem AllBlank.append {cs' : List Char} (h : AllBlank cs) (h' : AllBlank cs') :
    AllBlank (cs ++ cs') := by
  intro c hc
  exact (List.mem_append.mp hc).elim (h c) (h' c)

theorem AllBlank.endsName (h : AllBlank cs) (hrest : EndsName rest) : EndsName (cs ++ rest) := by
  cases cs with
  | nil => exact hrest
  | cons c cs => exact endsName_cons (inName_of_isBlank (h c List.mem_cons_self))

theorem AllBlank.trimFront (h : AllBlank cs) (rest : List Char) :
    Text.trimFront (cs ++ rest) = Text.trimFront rest :=
  List.dropWhile_append_of_pos h

theorem SpellsConditions.endsName {c c' : Compound} (h : SpellsConditions c cs c')
    (hrest : EndsCompound rest) : EndsName (cs ++ rest) := by
  cases h with
  | none => exact hrest.endsName
  | identified => exact endsName_cons (by decide)
  | classed => exact endsName_cons (by decide)
  | attributed => exact endsName_cons (by decide)

def Begins (cs : List Char) : Prop :=
  ∃ c ∈ cs.head?, Text.isBlank c = false ∧ c ≠ '>'

def Closed (cs : List Char) : Prop :=
  ∃ c ∈ cs.getLast?, Text.isBlank c = false

theorem begins_cons (hb : Text.isBlank c = false) (hc : c ≠ '>') : Begins (c :: rest) :=
  ⟨c, rfl, hb, hc⟩

theorem Begins.append (h : Begins cs) (rest : List Char) : Begins (cs ++ rest) := by
  obtain ⟨c, hc, hbegins⟩ := h
  exact ⟨c, by simp [List.head?_append, Option.mem_def.mp hc], hbegins⟩

theorem Closed.append_left (h : Closed rest) (cs : List Char) : Closed (cs ++ rest) := by
  obtain ⟨c, hc, hb⟩ := h
  exact ⟨c, by simp [List.getLast?_append, Option.mem_def.mp hc], hb⟩

theorem IsName.closed (h : IsName cs) : Closed cs :=
  ⟨cs.getLast h.nonempty, List.getLast?_eq_some_getLast h.nonempty,
    isBlank_of_inName (h.chars _ (List.getLast_mem h.nonempty))⟩

theorem SpellsAttribute.closed {condition : String × AttributeTest}
    (h : SpellsAttribute cs condition) : Closed cs := by
  have hbracket : Closed [']'] := ⟨']', rfl, by decide⟩
  cases h with
  | present => exact ((hbracket.append_left _).append_left _).append_left _
  | tested =>
    exact ((((((hbracket.append_left _).append_left _).append_left _).append_left _).append_left
      _).append_left _).append_left _

theorem SpellsConditions.closed {c c' : Compound} (h : SpellsConditions c cs c')
    (before : List Char) (hbefore : Closed before ∨ before = []) (hne : before ++ cs ≠ []) :
    Closed (before ++ cs) := by
  induction h generalizing before with
  | none =>
    rw [List.append_nil] at hne ⊢
    exact hbefore.resolve_right hne
  | @identified _ _ name cs hname _ ih =>
    have hclosed : Closed (before ++ '#' :: name) := by
      simpa using hname.closed.append_left (before ++ ['#'])
    simpa using ih _ (.inl hclosed) (by simp)
  | @classed _ _ name cs hname _ ih =>
    have hclosed : Closed (before ++ '.' :: name) := by
      simpa using hname.closed.append_left (before ++ ['.'])
    simpa using ih _ (.inl hclosed) (by simp)
  | @attributed _ _ inner cs _ hinner _ ih =>
    have hclosed : Closed (before ++ '[' :: inner) := by
      simpa using hinner.closed.append_left (before ++ ['['])
    simpa using ih _ (.inl hclosed) (by simp)

theorem SpellsCompound.closed {c : Compound} (h : SpellsCompound cs c) : Closed cs := by
  cases h with
  | star h =>
    have hstar : Closed ['*'] := ⟨'*', rfl, by decide⟩
    exact h.closed _ (.inl hstar) (by simp)
  | @tag _ first name cs _ hname h =>
    exact h.closed (first :: name) (.inl hname.closed) (by simp)
  | bare hne h => exact h.closed [] (.inr rfl) hne

theorem SpellsCompound.begins {c : Compound} (h : SpellsCompound cs c) : Begins cs := by
  cases h with
  | star => exact begins_cons (by decide) (by decide)
  | tag _ hname _ =>
    have hfirst := hname.chars _ List.mem_cons_self
    exact begins_cons (isBlank_of_inName hfirst) (ne_of_inName (by decide) hfirst)
  | bare hne h =>
    cases h with
    | none => exact absurd rfl hne
    | identified => exact begins_cons (by decide) (by decide)
    | classed => exact begins_cons (by decide) (by decide)
    | attributed => exact begins_cons (by decide) (by decide)

theorem Spells.begins {s : Selector} (h : Spells cs s) : Begins cs := by
  induction h with
  | compound h => exact h.begins
  | extend _ _ _ ih => exact ih.append _

theorem Spells.closed {s : Selector} (h : Spells cs s) : Closed cs := by
  cases h with
  | compound h => exact h.closed
  | extend _ _ h => exact (h.closed.append_left _).append_left _

theorem SpellsRelation.endsCompound {relation : Relation} (h : SpellsRelation cs relation)
    (rest : List Char) : cs ≠ [] ∧ EndsCompound (cs ++ rest) := by
  cases h with
  | descendant hc _ => exact ⟨by simp, by simp [EndsCompound, hc]⟩
  | @child w more hw _ =>
    refine ⟨by simp, ?_⟩
    cases w with
    | nil => simp [EndsCompound]
    | cons c w => simp [EndsCompound, hw c List.mem_cons_self]

end ActiveMarkup.Selector
