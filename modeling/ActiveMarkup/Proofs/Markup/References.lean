import ActiveMarkup.Proofs.Markup.Reading
import Mathlib.Data.Nat.Digits.Defs
set_option autoImplicit false

/-!
Character references. The grammar says which names and numbers are references; replacing them from
the left is a relation that copies a character only where no reference starts. Decoding is that
relation for a grammar with one more form, a number with a plus sign in front of its digits. What is
escaped is read back, and it ends where it was written to end.
-/

namespace ActiveMarkup.Markup

inductive Digit : Char → Nat → Prop where
  | decimal (k : Fin 10) : Digit (Char.ofNat ('0'.toNat + k)) k
  | small (k : Fin 6) : Digit (Char.ofNat ('a'.toNat + k)) (k + 10)
  | capital (k : Fin 6) : Digit (Char.ofNat ('A'.toNat + k)) (k + 10)

def Spells (base : Nat) (ds : List Char) (n : Nat) : Prop :=
  ds ≠ [] ∧ ∃ ks, List.Forall₂ (fun c k => Digit c k ∧ k < base) ds ks ∧
    n = Nat.ofDigits base ks.reverse

theorem exists_place {c low high : Char} (size : Nat) (hc : (low ≤ c && c ≤ high) = true)
    (hsize : high.toNat < low.toNat + size) :
    ∃ n : Fin size, c = Char.ofNat (low.toNat + n) ∧ c.toNat - low.toNat = n := by
  simp only [Bool.and_eq_true, decide_eq_true_eq] at hc
  have hlow : low.toNat ≤ c.toNat := hc.1
  have hhigh : c.toNat ≤ high.toNat := hc.2
  refine ⟨⟨c.toNat - low.toNat, by omega⟩, ?_, rfl⟩
  rw [Nat.add_sub_cancel' hlow, Char.ofNat_toNat]

theorem digitIn?_eq_some_iff {base k : Nat} {c : Char} :
    Text.digitIn? base c = some k ↔ Digit c k ∧ k < base := by
  constructor
  · intro h
    obtain ⟨hdigit, hlt⟩ := Option.filter_eq_some_iff.mp h
    refine ⟨?_, by simpa using hlt⟩
    split at hdigit
    next hc =>
      obtain ⟨n, hn, hvalue⟩ := exists_place 10 hc (by decide)
      cases hdigit
      rw [hvalue, hn]
      exact .decimal n
    split at hdigit
    next hc =>
      obtain ⟨n, hn, hvalue⟩ := exists_place 6 hc (by decide)
      cases hdigit
      rw [hvalue, hn]
      exact .small n
    split at hdigit
    next hc =>
      obtain ⟨n, hn, hvalue⟩ := exists_place 6 hc (by decide)
      cases hdigit
      rw [hvalue, hn]
      exact .capital n
    · cases hdigit
  · rintro ⟨hdigit, hlt⟩
    refine Option.filter_eq_some_iff.mpr ⟨?_, by simpa using hlt⟩
    clear hlt
    cases hdigit with
    | decimal n => revert n; decide
    | small n => revert n; decide
    | capital n => revert n; decide

theorem digitsIn?_eq_some_iff {base : Nat} {ds : List Char} {n m : Nat} :
    Text.digitsIn? base n ds = some m ↔
      ∃ ks, List.Forall₂ (fun c k => Digit c k ∧ k < base) ds ks ∧
        m = ks.foldl (fun n k => base * n + k) n := by
  induction ds generalizing n with
  | nil => simp [Text.digitsIn?, eq_comm]
  | cons c ds ih =>
    simp only [Text.digitsIn?, Option.bind_eq_bind, Option.bind_eq_some_iff,
      digitIn?_eq_some_iff, ih, List.forall₂_cons_left_iff]
    constructor
    · rintro ⟨k, hk, ks, hks, hm⟩
      exact ⟨k :: ks, ⟨k, ks, hk, hks, rfl⟩, hm⟩
    · rintro ⟨_, ⟨k, ks, hk, hks, rfl⟩, hm⟩
      exact ⟨k, hk, ks, hks, hm⟩

theorem spells_iff {base : Nat} {ds : List Char} {n : Nat} :
    Spells base ds n ↔ ds ≠ [] ∧ Text.digitsIn? base 0 ds = some n := by
  simp only [Spells, digitsIn?_eq_some_iff, Nat.ofDigits_eq_foldr, List.foldr_reverse, Nat.cast_id,
    Nat.add_comm]

theorem not_digit {c : Char} (h : Text.digitIn? 16 c = none) (k : Nat) : ¬ Digit c k := by
  intro hdigit
  have hlt : k < 16 := by
    cases hdigit <;> omega
  rw [digitIn?_eq_some_iff.mpr ⟨hdigit, hlt⟩] at h
  cases h

theorem Spells.not_mem {base : Nat} {ds : List Char} {n : Nat} (h : Spells base ds n) {c : Char}
    (hc : Text.digitIn? 16 c = none) : c ∉ ds := by
  obtain ⟨-, ks, hks, -⟩ := h
  induction hks with
  | nil => exact List.not_mem_nil
  | cons hk _ ih =>
    rw [List.mem_cons, not_or]
    refine ⟨?_, ih⟩
    rintro rfl
    exact not_digit hc _ hk.1

theorem unsigned?_eq_some_iff {base : Nat} {cs : List Char} {n : Nat} :
    Text.unsigned? base cs = some n ↔
      Spells base cs n ∨ ∃ ds, cs = '+' :: ds ∧ Spells base ds n := by
  unfold Text.unsigned?
  split
  next c ds =>
    have hplus : ¬ Spells base ('+' :: c :: ds) n := fun h => h.not_mem rfl List.mem_cons_self
    simp [hplus, spells_iff]
  next c ds hplus =>
    have hsigned : ¬ ∃ ds', c :: ds = '+' :: ds' ∧ Spells base ds' n := by
      rintro ⟨ds', heq, h⟩
      cases heq
      cases ds with
      | nil => exact h.1 rfl
      | cons d ds => exact hplus d ds rfl rfl
    rw [or_iff_left hsigned, spells_iff]
    simp
  next =>
    simp [Spells]

def namedCharacters : List (List Char × Char) :=
  [("amp".toList, '&'), ("lt".toList, '<'), ("gt".toList, '>'), ("quot".toList, '"'),
    ("apos".toList, '\''), ("nbsp".toList, '\u00a0')]

def Coded (base : Nat) (ds : List Char) (c : Char) : Prop :=
  ∃ n, Spells base ds n ∧ n.isValidChar ∧ c = Char.ofNat n

/-- What stands between the ampersand and the semicolon of a reference, and its character. -/
inductive Reference : List Char → Char → Prop where
  | named {name : List Char} {c : Char} (h : (name, c) ∈ namedCharacters) : Reference name c
  | decimal {ds : List Char} {c : Char} (h : Coded 10 ds c) : Reference ('#' :: ds) c
  | hexadecimal {x : Char} {ds : List Char} {c : Char} (hx : x = 'x' ∨ x = 'X')
      (h : Coded 16 ds c) : Reference ('#' :: x :: ds) c

/-- What stands there if a plus sign is put in front of the digits of a number. -/
inductive SignedReference : List Char → Char → Prop where
  | decimal {ds : List Char} {c : Char} (h : Coded 10 ds c) : SignedReference ('#' :: '+' :: ds) c
  | hexadecimal {x : Char} {ds : List Char} {c : Char} (hx : x = 'x' ∨ x = 'X')
      (h : Coded 16 ds c) : SignedReference ('#' :: x :: '+' :: ds) c

def AnyReference (name : List Char) (c : Char) : Prop :=
  Reference name c ∨ SignedReference name c

theorem charOfCode?_eq_some_iff {n : Nat} {c : Char} :
    charOfCode? n = some c ↔ n.isValidChar ∧ c = Char.ofNat n := by
  simp [charOfCode?, eq_comm]

theorem coded_iff {base : Nat} {cs : List Char} {c : Char} :
    (Text.unsigned? base cs).bind charOfCode? = some c ↔
      Coded base cs c ∨ ∃ ds, cs = '+' :: ds ∧ Coded base ds c := by
  simp only [Option.bind_eq_some_iff, unsigned?_eq_some_iff, charOfCode?_eq_some_iff, Coded]
  constructor
  · rintro ⟨n, hspells | ⟨ds, rfl, hspells⟩, hcode⟩
    · exact .inl ⟨n, hspells, hcode⟩
    · exact .inr ⟨ds, rfl, n, hspells, hcode⟩
  · rintro (⟨n, hspells, hcode⟩ | ⟨ds, rfl, n, hspells, hcode⟩)
    · exact ⟨n, .inl hspells, hcode⟩
    · exact ⟨n, .inr ⟨ds, rfl, hspells⟩, hcode⟩

theorem referenced?_decimal {cs : List Char} {c : Char}
    (h : (Text.unsigned? 10 cs).bind charOfCode? = some c) : referenced? ('#' :: cs) = some c := by
  have hsmall : ∀ ds, cs = 'x' :: ds → False := by
    rintro ds rfl
    cases ds <;> cases h
  have hcapital : ∀ ds, cs = 'X' :: ds → False := by
    rintro ds rfl
    cases ds <;> cases h
  rw [referenced?.eq_9 cs hsmall hcapital, h]

theorem referenced?_named :
    ∀ entry ∈ namedCharacters, referenced? entry.1 = some entry.2 := by
  decide

theorem referenced?_eq_some_iff {name : List Char} {c : Char} :
    referenced? name = some c ↔ AnyReference name c := by
  constructor
  · unfold referenced?
    split
    case h_7 ds =>
      intro h
      obtain hcoded | ⟨ds, rfl, hcoded⟩ := coded_iff.mp h
      · exact .inl (.hexadecimal (.inl rfl) hcoded)
      · exact .inr (.hexadecimal (.inl rfl) hcoded)
    case h_8 ds =>
      intro h
      obtain hcoded | ⟨ds, rfl, hcoded⟩ := coded_iff.mp h
      · exact .inl (.hexadecimal (.inr rfl) hcoded)
      · exact .inr (.hexadecimal (.inr rfl) hcoded)
    case h_9 ds _ _ =>
      intro h
      obtain hcoded | ⟨ds, rfl, hcoded⟩ := coded_iff.mp h
      · exact .inl (.decimal hcoded)
      · exact .inr (.decimal hcoded)
    case h_10 => exact nofun
    all_goals
      intro h
      cases h
      exact .inl (.named (by decide))
  · rintro (href | href)
    · cases href with
      | named h => exact referenced?_named _ h
      | decimal h => exact referenced?_decimal (coded_iff.mpr (.inl h))
      | hexadecimal hx h => rcases hx with rfl | rfl <;> exact coded_iff.mpr (.inl h)
    · cases href with
      | decimal h => exact referenced?_decimal (coded_iff.mpr (.inr ⟨_, rfl, h⟩))
      | hexadecimal hx h => rcases hx with rfl | rfl <;> exact coded_iff.mpr (.inr ⟨_, rfl, h⟩)

theorem Coded.not_mem {base : Nat} {ds : List Char} {c mark : Char} (h : Coded base ds c)
    (hmark : Text.digitIn? 16 mark = none) : mark ∉ ds := by
  obtain ⟨n, hspells, -⟩ := h
  exact hspells.not_mem hmark

theorem Reference.not_mem {mark : Char} (hmark : mark = '&' ∨ mark = ';' ∨ mark = '+')
    {name : List Char} {c : Char} (h : Reference name c) : mark ∉ name := by
  have hsigns : mark ≠ '#' ∧ mark ≠ 'x' ∧ mark ≠ 'X' := by
    rcases hmark with rfl | rfl | rfl <;> decide
  have hnames : ∀ entry ∈ namedCharacters, mark ∉ entry.1 := by
    rcases hmark with rfl | rfl | rfl <;> decide
  have hcoded : ∀ {base ds}, Coded base ds c → mark ∉ ds := by
    rcases hmark with rfl | rfl | rfl <;> exact fun h => h.not_mem rfl
  cases h with
  | named hname => exact hnames _ hname
  | decimal h => simp [hsigns, hcoded h]
  | hexadecimal hx h => rcases hx with rfl | rfl <;> simp [hsigns, hcoded h]

theorem SignedReference.exists_reference {name : List Char} {c : Char}
    (h : SignedReference name c) :
    ∃ a b, name = a ++ '+' :: b ∧ Reference (a ++ b) c := by
  cases h with
  | decimal h => exact ⟨['#'], _, rfl, .decimal h⟩
  | @hexadecimal x ds c hx h => exact ⟨['#', x], ds, rfl, .hexadecimal hx h⟩

theorem SignedReference.not_reference {name : List Char} {c c' : Char}
    (h : SignedReference name c) : ¬ Reference name c' := by
  intro href
  obtain ⟨a, b, rfl, -⟩ := h.exists_reference
  exact href.not_mem (.inr (.inr rfl)) (List.mem_append_right a List.mem_cons_self)

theorem AnyReference.not_mem {mark : Char} (hmark : mark = '&' ∨ mark = ';') {name : List Char}
    {c : Char} (h : AnyReference name c) : mark ∉ name := by
  have hreference : ∀ {name}, Reference name c → mark ∉ name := fun h =>
    h.not_mem (hmark.imp_right .inl)
  rcases h with h | h
  · exact hreference h
  · obtain ⟨a, b, rfl, hab⟩ := h.exists_reference
    have hne : mark ≠ '+' := by
      rcases hmark with rfl | rfl <;> decide
    simpa [hne] using hreference hab

/-- A reference starts a text: an ampersand, what is known between the marks, and a semicolon that
is at most ten bytes away from the ampersand. -/
def StartsReference (known : List Char → Char → Prop) (cs : List Char) : Prop :=
  ∃ name c rest, known name c ∧ 1 + Text.byteSize name ≤ 10 ∧ cs = '&' :: (name ++ ';' :: rest)

theorem StartsReference.head {known : List Char → Char → Prop} {c : Char} {cs : List Char}
    (h : StartsReference known (c :: cs)) : c = '&' := by
  obtain ⟨name, found, rest, -, -, heq⟩ := h
  exact (List.cons.inj heq).1

theorem StartsReference.not_signed {cs : List Char} (h : StartsReference Reference cs) :
    ¬ StartsReference SignedReference cs := by
  rintro ⟨name', c', rest', hsigned, -, rfl⟩
  obtain ⟨name, c, rest, hname, -, heq⟩ := h
  have hcut : Text.cutAt ';' (name ++ ';' :: rest) = some (name, rest) :=
    Text.cutAt_append_mark (hname.not_mem (.inr (.inl rfl)))
  have hcut' : Text.cutAt ';' (name' ++ ';' :: rest') = some (name', rest') :=
    Text.cutAt_append_mark (AnyReference.not_mem (.inr rfl) (.inr hsigned))
  rw [(List.cons.inj heq).2, hcut] at hcut'
  cases hcut'
  exact hsigned.not_reference hname

/-- References are replaced from the left, and a character is copied where none starts. -/
inductive Replaced (known : List Char → Char → Prop) : List Char → List Char → Prop where
  | nil : Replaced known [] []
  | reference {name rest out : List Char} {c : Char} (hname : known name c)
      (hspan : 1 + Text.byteSize name ≤ 10) (h : Replaced known rest out) :
      Replaced known ('&' :: (name ++ ';' :: rest)) (c :: out)
  | copied {c : Char} {cs out : List Char} (hc : ¬ StartsReference known (c :: cs))
      (h : Replaced known cs out) : Replaced known (c :: cs) (c :: out)

theorem exists_replaced (known : List Char → Char → Prop) (cs : List Char) :
    ∃ out, Replaced known cs out := by
  induction hlen : cs.length using Nat.strongRecOn generalizing cs with
  | _ n ih =>
    cases cs with
    | nil => exact ⟨[], .nil⟩
    | cons c cs =>
      subst hlen
      by_cases h : StartsReference known (c :: cs)
      · obtain ⟨name, found, rest, hname, hspan, heq⟩ := h
        have hlt : rest.length < (c :: cs).length := by
          rw [heq]
          simp only [List.length_cons, List.length_append]
          omega
        obtain ⟨out, hout⟩ := ih _ hlt rest rfl
        rw [heq]
        exact ⟨found :: out, .reference hname hspan hout⟩
      · obtain ⟨out, hout⟩ := ih _ (Nat.lt_succ_self _) cs rfl
        exact ⟨c :: out, .copied h hout⟩

theorem Replaced.of_not_mem {known : List Char → Char → Prop} {cs : List Char} (h : '&' ∉ cs) :
    Replaced known cs cs := by
  induction cs with
  | nil => exact .nil
  | cons c cs ih =>
    rw [List.mem_cons, not_or] at h
    exact .copied (fun hstarts => h.1 hstarts.head.symm) (ih h.2)

theorem Replaced.congr {known known' : List Char → Char → Prop} {cs out : List Char}
    (hsame : ∀ name c rest, 1 + Text.byteSize name ≤ 10 →
      '&' :: (name ++ ';' :: rest) <:+ cs → (known name c ↔ known' name c))
    (h : Replaced known cs out) : Replaced known' cs out := by
  induction h with
  | nil => exact .nil
  | @reference name rest out c hname hspan _ ih =>
    refine .reference ((hsame name c rest hspan List.suffix_rfl).mp hname) hspan (ih ?_)
    intro name' c' rest' hspan' hsuffix
    have hrest : rest <:+ '&' :: (name ++ ';' :: rest) := ⟨'&' :: (name ++ [';']), by simp⟩
    exact hsame name' c' rest' hspan' (hsuffix.trans hrest)
  | @copied c cs out hc _ ih =>
    refine .copied ?_ (ih fun name' c' rest' hspan' hsuffix =>
      hsame name' c' rest' hspan' (hsuffix.trans (List.suffix_cons c cs)))
    rintro ⟨name, c', rest, hname, hspan, heq⟩
    exact hc ⟨name, c', rest, (hsame name c' rest hspan (heq ▸ List.suffix_rfl)).mpr hname, hspan,
      heq⟩

def Occurs (known : List Char → Char → Prop) (cs : List Char) : Prop :=
  ∃ cs', cs' <:+ cs ∧ StartsReference known cs'

theorem occurs_cons_iff {known : List Char → Char → Prop} {c : Char} {cs : List Char} :
    Occurs known (c :: cs) ↔ StartsReference known (c :: cs) ∨ Occurs known cs := by
  simp only [Occurs, List.suffix_cons_iff, or_and_right, exists_or, exists_eq_left]

theorem occurs_append_iff {known : List Char → Char → Prop} {a b : List Char} (h : '&' ∉ a) :
    Occurs known (a ++ b) ↔ Occurs known b := by
  induction a with
  | nil => rfl
  | cons c a ih =>
    rw [List.mem_cons, not_or] at h
    rw [List.cons_append, occurs_cons_iff, ih h.2]
    exact or_iff_right fun hstarts => h.1 hstarts.head.symm

theorem decode_append {a : List Char} (h : '&' ∉ a) (b : List Char) :
    decode (a ++ b) = a ++ decode b := by
  induction a with
  | nil => rfl
  | cons c a ih =>
    rw [List.mem_cons, not_or] at h
    rw [List.cons_append, decode_cons (Ne.symm h.1), ih h.2, List.cons_append]

theorem decode_anyReference {name : List Char} {c : Char} (h : AnyReference name c)
    (hspan : 1 + Text.byteSize name ≤ 10) (rest : List Char) :
    decode ('&' :: (name ++ ';' :: rest)) = c :: decode rest :=
  decode_reference name (referenced?_eq_some_iff.mpr h) (h.not_mem (.inr rfl)) hspan rest

theorem startsReference_of_reference? {cs : List Char} {c : Char} {size : Nat}
    (h : reference? cs = some (c, size)) : StartsReference AnyReference ('&' :: cs) := by
  unfold reference? at h
  split at h
  · cases h
  next name after hcut =>
    split at h
    next hbytes =>
      obtain ⟨found, hname, hfound⟩ := Option.map_eq_some_iff.mp h
      cases hfound
      have hcs : (name ++ ';' :: after) ++ cs.drop referenceSpan = cs := by
        rw [Text.cutAt_append hcut, List.take_append_drop]
      exact ⟨name, c, after ++ cs.drop referenceSpan, referenced?_eq_some_iff.mp hname, hbytes,
        congrArg ('&' :: ·) (hcs.symm.trans (List.append_assoc _ _ _))⟩
    next => cases h

theorem decode_copied {c : Char} {cs : List Char}
    (h : ¬ StartsReference AnyReference (c :: cs)) : decode (c :: cs) = c :: decode cs := by
  by_cases hc : c = '&'
  · subst hc
    have hnone : reference? cs = none := by
      cases href : reference? cs with
      | none => rfl
      | some found => exact (h (startsReference_of_reference? href)).elim
    rw [decode, hnone]
    rfl
  · exact decode_cons hc cs

/-- The decoded text is what replacing all that is read as references gives. -/
theorem replaced_anyReference_iff {cs out : List Char} :
    Replaced AnyReference cs out ↔ decode cs = out := by
  have hdecode : ∀ {out}, Replaced AnyReference cs out → decode cs = out := by
    intro out h
    induction h with
    | nil => exact decode.eq_1
    | reference hname hspan _ ih => rw [decode_anyReference hname hspan, ih]
    | copied hc _ ih => rw [decode_copied hc, ih]
  refine ⟨hdecode, ?_⟩
  rintro rfl
  obtain ⟨out, h⟩ := exists_replaced AnyReference cs
  rw [hdecode h]
  exact h

/-- A text in which a signed reference stands gets shorter than replacing references makes it. -/
theorem Replaced.length_decode {cs out : List Char} (h : Replaced Reference cs out) :
    (decode cs).length ≤ out.length ∧
      (Occurs SignedReference cs → (decode cs).length < out.length) := by
  induction h with
  | nil =>
    refine ⟨by rw [decode], ?_⟩
    rintro ⟨cs', hsuffix, name, c, rest, -, -, rfl⟩
    exact absurd (List.suffix_nil.mp hsuffix) (List.cons_ne_nil _ _)
  | @reference name rest out c hname hspan _ ih =>
    rw [decode_anyReference (.inl hname) hspan, List.length_cons, List.length_cons]
    refine ⟨Nat.succ_le_succ ih.1, fun hoccurs => Nat.succ_lt_succ (ih.2 ?_)⟩
    rcases occurs_cons_iff.mp hoccurs with hsigned | hoccurs
    · exact (StartsReference.not_signed ⟨name, c, rest, hname, hspan, rfl⟩ hsigned).elim
    · have hbefore : '&' ∉ name ++ [';'] := by
        simp [hname.not_mem (.inl rfl)]
      rw [List.append_cons, occurs_append_iff hbefore] at hoccurs
      exact hoccurs
  | @copied c cs out hc _ ih =>
    by_cases hsigned : StartsReference SignedReference (c :: cs)
    · obtain ⟨name, found, rest, hname, hspan, heq⟩ := hsigned
      cases heq
      -- what is copied of the signed reference is longer than its character
      have hshorter := ih.1
      rw [decode_append (AnyReference.not_mem (.inl rfl) (.inr hname)), List.length_append,
        decode_cons (by decide), List.length_cons] at hshorter
      rw [decode_anyReference (.inr hname) hspan]
      simp only [List.length_cons]
      exact ⟨by omega, fun _ => by omega⟩
    · have hnone : ¬ StartsReference AnyReference (c :: cs) := by
        rintro ⟨name, found, rest, hname | hname, hspan, heq⟩
        · exact hc ⟨name, found, rest, hname, hspan, heq⟩
        · exact hsigned ⟨name, found, rest, hname, hspan, heq⟩
      rw [decode_copied hnone, List.length_cons, List.length_cons, occurs_cons_iff,
        or_iff_right hsigned]
      exact ⟨Nat.succ_le_succ ih.1, fun hoccurs => Nat.succ_lt_succ (ih.2 hoccurs)⟩

theorem replaced_reference_iff {cs out : List Char} (h : ¬ Occurs SignedReference cs) :
    Replaced Reference cs out ↔ Replaced AnyReference cs out := by
  have hsame : ∀ name c rest, 1 + Text.byteSize name ≤ 10 →
      '&' :: (name ++ ';' :: rest) <:+ cs → (Reference name c ↔ AnyReference name c) :=
    fun name c rest hspan hsuffix => (or_iff_left fun hsigned =>
      h ⟨_, hsuffix, name, c, rest, hsigned, hspan, rfl⟩).symm
  exact ⟨.congr hsame, .congr fun name c rest hspan hsuffix =>
    (hsame name c rest hspan hsuffix).symm⟩

/-- Decoding replaces references and signed references from the left, and it replaces references
only if and only if no signed one stands in the text. -/
theorem decode_replaces (cs : List Char) :
    (∀ out, Replaced AnyReference cs out ↔ decode cs = out) ∧
    ((∀ out, Replaced Reference cs out ↔ decode cs = out) ↔ ¬ Occurs SignedReference cs) := by
  refine ⟨fun _ => replaced_anyReference_iff, ?_, ?_⟩
  · intro hexact hoccurs
    have hlength := ((hexact (decode cs)).mpr rfl).length_decode.2 hoccurs
    exact Nat.lt_irrefl _ hlength
  · intro hnone out
    rw [replaced_reference_iff hnone, replaced_anyReference_iff]

example : decode "&#65;&#x42;&unknown;&#xD800;&amp;lt;".toList =
    "AB&unknown;&#xD800;&lt;".toList := by cbv

/-- A number with a plus sign is no reference, and it is decoded. -/
theorem decode_replaces_plus :
    Replaced Reference "&#+65;".toList "&#+65;".toList ∧ decode "&#+65;".toList = ['A'] ∧
      ¬ Replaced Reference "&#+65;".toList (decode "&#+65;".toList) := by
  have hname : SignedReference "#+65".toList 'A' :=
    .decimal ⟨65, spells_iff.mpr (by decide), by decide, rfl⟩
  have hsigned : StartsReference SignedReference "&#+65;".toList :=
    ⟨_, _, [], hname, by decide, rfl⟩
  have hdecode : decode "&#+65;".toList = ['A'] :=
    (decode_anyReference (.inr hname) (by decide) []).trans (congrArg _ decode.eq_1)
  refine ⟨.copied (fun h => h.not_signed hsigned) (.of_not_mem (by decide)), hdecode, fun h => ?_⟩
  exact Nat.lt_irrefl _ (h.length_decode.2 ⟨_, List.suffix_rfl, hsigned⟩)

theorem toList_renderAll_texts (texts : List String) :
    (renderAll false (texts.map .text)).toList = escape .content (String.join texts).toList := by
  induction texts with
  | nil => rfl
  | cons s texts ih =>
    have hjoin : (String.join (s :: texts)).toList = s.toList ++ (String.join texts).toList := by
      simp only [String.toList_join, List.flatMap_cons]
    rw [hjoin, escape_append, ← ih]
    simp [renderAll, render]

/-- Escaped texts are decoded to what they were; what would end them does not occur in them, so
texts that stand side by side are read as one text up to where the last one ends, and the value of
an attribute is read up to its last quotation mark. -/
theorem escaped_reads_back :
    (∀ place cs, decode (escape place cs) = cs) ∧
    (∀ cs, '<' ∉ escape .content cs ∧ '>' ∉ escape .content cs ∧ '"' ∉ escape .attribute cs) ∧
    (∀ texts rest, String.join texts ≠ "" → TextEnd rest →
      ∃ c cs, (renderAll false (texts.map .text)).toList = c :: cs ∧
        nextPiece c (cs ++ rest) = .ok (some (.text (String.join texts)), rest)) ∧
    (∀ name value rest, value ≠ "" →
      ∃ assigned, (renderAttribute name value).toList = ' ' :: (name.toList ++ assigned) ∧
        readAssigned (assigned ++ rest) = .ok (value, rest)) := by
  refine ⟨decode_escape, fun cs => ⟨fun h => ?_, fun h => ?_, fun h => ?_⟩,
    fun texts rest hne hend => ?_, fun name value rest hne => ?_⟩
  · exact absurd (mem_escape h) (by decide)
  · exact absurd (mem_escape h) (by decide)
  · exact absurd (mem_escape h) (by decide)
  · rw [toList_renderAll_texts]
    exact nextPiece_escaped hne hend
  · refine ⟨'=' :: '"' :: (escape .attribute value.toList ++ ['"']), ?_, ?_⟩
    · simp [renderAttribute, hne]
    · have happend : '=' :: '"' :: (escape .attribute value.toList ++ ['"']) ++ rest =
          '=' :: '"' :: (escape .attribute value.toList ++ '"' :: rest) := by
        simp
      rw [happend]
      exact readAssigned_value value rest

/-- Two texts with what looks like references, before a closing tag, and a value that holds a
quotation mark. -/
theorem escaped_reads_back_texts :
    String.join ["a;<b", "&amp;"] ≠ "" ∧ TextEnd "</p>".toList ∧
      (∃ c cs, (renderAll false [.text "a;<b", .text "&amp;"]).toList = c :: cs ∧
        nextPiece c (cs ++ "</p>".toList) =
          .ok (some (.text (String.join ["a;<b", "&amp;"])), "</p>".toList)) ∧
      "&quot;\"" ≠ "" ∧
      ∃ assigned, (renderAttribute "title" "&quot;\"").toList =
          ' ' :: ("title".toList ++ assigned) ∧
        readAssigned (assigned ++ ">".toList) = .ok ("&quot;\"", ">".toList) := by
  have hne : String.join ["a;<b", "&amp;"] ≠ "" := by decide
  have hend : TextEnd "</p>".toList := .inr ⟨_, rfl⟩
  have hvalue : "&quot;\"" ≠ "" := by decide
  obtain ⟨-, -, htexts, hvalues⟩ := escaped_reads_back
  exact ⟨hne, hend, htexts ["a;<b", "&amp;"] _ hne hend, hvalue, hvalues "title" _ _ hvalue⟩

end ActiveMarkup.Markup
