import ActiveMarkup.Value.Number
import ActiveMarkup.Proofs.Decimal.Form
import ActiveMarkup.Proofs.Text.Lowercase
set_option autoImplicit false

namespace ActiveMarkup.Decimal

/-- The longest numeral at the front of a text. -/
structure LongestNumeral (cs q : List Char) : Prop where
  numeral : IsNumeral q
  front : q <+: cs
  longest : ∀ p, IsNumeral p → p <+: cs → p.length ≤ q.length

theorem read?_eq (cs : List Char) : Numeral.read? cs =
    let (negative, rest) := takeSign cs
    let (w, f, rest) := takeMantissa rest
    if w.isEmpty && f.isEmpty then none
    else some (⟨negative, w, f, (takeExponent rest).1⟩, (takeExponent rest).2) := rfl

/-- At least the numeral is read, whatever follows it, and it is read as itself at the end of the
text. -/
theorem Numeral.Spelled.read?_append {n : Numeral} {p : List Char} (h : n.Spelled p)
    (rest : List Char) : ∃ n' rest', Numeral.read? (p ++ rest) = some (n', rest') ∧
      rest' <:+ rest ∧ (rest = [] → n' = n) := by
  obtain @⟨negative, w, f, s, m, t, x, hs, hm, hx⟩ := h
  have hsign := takeSign_mantissa hs hm (t ++ rest)
  obtain ⟨w', f', after, hmantissa, hne, hafter, hstop⟩ := takeMantissa_append hm (t ++ rest)
  obtain ⟨hrest, hend⟩ := takeExponent_append hx rest
  have hread : Numeral.read? (s ++ (m ++ t) ++ rest) =
      some (⟨negative, w', f', (takeExponent after).1⟩, (takeExponent after).2) := by
    have hnot : (w'.isEmpty && f'.isEmpty) = false := by
      simpa [imp_iff_not_or] using hne
    rw [List.append_assoc, List.append_assoc, read?_eq, hsign]
    dsimp only
    rw [hmantissa]
    simp [hnot]
  refine ⟨_, _, hread, ?_, ?_⟩
  · rcases hx.head rest with rfl | hhead
    · exact (takeExponent_suffix after).trans hafter
    · obtain ⟨-, -, rfl⟩ := hstop hhead
      exact hrest
  · rintro rfl
    have hhead : ∀ c ∈ (t ++ []).head?, c.isDigit = false ∧ c ≠ '.' := by
      rcases hx.head [] with rfl | hhead
      · nofun
      · exact hhead
    obtain ⟨rfl, rfl, rfl⟩ := hstop hhead
    rw [hend rfl]

theorem spelled_of_read? {cs rest : List Char} {n : Numeral}
    (h : Numeral.read? cs = some (n, rest)) : ∃ q, n.Spelled q ∧ cs = q ++ rest := by
  obtain ⟨s, hs, hcs⟩ := takeSign_spelled cs
  rw [read?_eq] at h
  generalize takeSign cs = signed at h hs hcs
  obtain ⟨negative, after⟩ := signed
  cases hmantissa : takeMantissa after with
  | mk w more =>
    obtain ⟨f, after'⟩ := more
    obtain ⟨t, ht, hafter'⟩ := takeExponent_spelled after'
    simp only [hmantissa] at h
    split at h
    · cases h
    next hne =>
      cases h
      obtain ⟨m, hm, hafter⟩ := takeMantissa_spelled hmantissa (by simpa [imp_iff_not_or] using hne)
      refine ⟨s ++ (m ++ t), .parts hs hm ht, ?_⟩
      rw [hcs, hafter, List.append_assoc, List.append_assoc, ← hafter']

theorem Numeral.Spelled.read? {n : Numeral} {q : List Char} (h : n.Spelled q) :
    Numeral.read? q = some (n, []) := by
  obtain ⟨n', rest, hread, hrest, hsame⟩ := h.read?_append []
  rw [List.append_nil, hsame rfl, List.suffix_nil.mp hrest] at hread
  exact hread

theorem exists_read?_of_isNumeral {cs p : List Char} (h : IsNumeral p) (hp : p <+: cs) :
    ∃ n rest, Numeral.read? cs = some (n, rest) ∧ p.length + rest.length ≤ cs.length := by
  obtain ⟨m, hm⟩ := h
  obtain ⟨r, rfl⟩ := hp
  obtain ⟨n, rest, hread, hrest, -⟩ := hm.read?_append r
  refine ⟨n, rest, hread, ?_⟩
  have hle := hrest.length_le
  rw [List.length_append]
  omega

theorem longestNumeral_of_read? {cs rest : List Char} {n : Numeral}
    (h : Numeral.read? cs = some (n, rest)) :
    ∃ q, cs = q ++ rest ∧ n.Spelled q ∧ LongestNumeral cs q := by
  obtain ⟨q, hq, hcs⟩ := spelled_of_read? h
  refine ⟨q, hcs, hq, ⟨⟨n, hq⟩, ⟨rest, hcs.symm⟩, fun p hp hfront => ?_⟩⟩
  obtain ⟨n', rest', hread, hle⟩ := exists_read?_of_isNumeral hp hfront
  rw [h] at hread
  cases hread
  rw [hcs, List.length_append] at hle
  omega

theorem isDigit_toLower (c : Char) : c.toLower.isDigit = c.isDigit :=
  Text.toLower_congr (f := Char.isDigit) (by decide) c

theorem Numeral.Spelled.ne_word {n : Numeral} {q : List Char} (h : n.Spelled q) (word : String)
    {a : Char} {as : List Char} (hword : word.toList = a :: as) (ha : a.isDigit = false)
    (hpoint : a ≠ '.') :
    (String.ofList ((takeSign q).2.map Char.toLower) == word) = false := by
  obtain @⟨negative, w, f, s, m, t, x, hs, hm, -⟩ := h
  obtain ⟨c, more, hhead, hc⟩ := head_append_mantissa hm t
  rw [takeSign_mantissa hs hm, hhead, beq_eq_false_iff_ne]
  rintro rfl
  rw [String.toList_ofList] at hword
  obtain ⟨rfl, -⟩ := List.cons.inj hword
  rw [isDigit_toLower] at ha
  rcases hc with hd | rfl
  · rw [ha] at hd
    cases hd
  · exact hpoint rfl

theorem Numeral.Spelled.readWhole? {n : Numeral} {q : List Char} (h : n.Spelled q) :
    readWhole? q = some n.value := by
  have hinf := h.ne_word "inf" rfl rfl (by decide)
  have hinfinity := h.ne_word "infinity" rfl rfl (by decide)
  have hnan := h.ne_word "nan" rfl rfl (by decide)
  rw [Decimal.readWhole?]
  simp only [hinf, hinfinity, hnan, h.read?]
  rfl

end ActiveMarkup.Decimal

namespace ActiveMarkup.Value

open Decimal

def StartsInfinity (negative : Bool) (cs : List Char) : Prop :=
  ∃ sign rest, Sign negative sign ∧ cs = sign ++ ("Infinity".toList ++ rest)

theorem isPrefixOf_infinity_iff (cs : List Char) :
    "Infinity".toList.isPrefixOf (takeSign cs).2 = true ↔ StartsInfinity (takeSign cs).1 cs := by
  rw [List.isPrefixOf_iff_prefix]
  constructor
  · rintro ⟨rest, hrest⟩
    obtain ⟨sign, hsign, hcs⟩ := takeSign_spelled cs
    exact ⟨sign, rest, hsign, hrest ▸ hcs⟩
  · rintro ⟨sign, rest, hsign, hcs⟩
    have htake : takeSign cs = ((takeSign cs).1, "Infinity".toList ++ rest) := by
      conv => lhs; rw [hcs]
      exact takeSign_append hsign (by rintro _ ⟨⟩; decide)
    rw [htake]
    exact List.prefix_append _ rest

/-- The longest numeral. After the blanks in front, a sign and the word for infinity are that
infinity. Otherwise the longest text there that has the form of a numeral is what is read, and
leaves the rest; it is a number when it stands alone, and that is the result. If no text there has
that form the result is no number. -/
theorem leadingNumber_longest (s : String) :
    (∀ negative, StartsInfinity negative (Text.trimFront s.toList) →
      leadingNumber s = if negative then negativeInfinity else infinity) ∧
    ((∀ negative, ¬ StartsInfinity negative (Text.trimFront s.toList)) →
      (∀ p, IsNumeral p → p <+: Text.trimFront s.toList →
        ∃ q n rest, LongestNumeral (Text.trimFront s.toList) q ∧
          Text.trimFront s.toList = q ++ rest ∧
          Numeral.read? (Text.trimFront s.toList) = some (n, rest) ∧
          readWhole? q = some n.value ∧ leadingNumber s = n.value) ∧
      ((∀ p, IsNumeral p → ¬ p <+: Text.trimFront s.toList) → leadingNumber s = notANumber)) := by
  generalize ht : Text.trimFront s.toList = t
  have hlead : leadingNumber s =
      if "Infinity".toList.isPrefixOf (takeSign t).2 then
        if (takeSign t).1 then negativeInfinity else infinity
      else (Numeral.read? t).elim notANumber fun found => found.1.value := by
    rw [leadingNumber, ht]
    cases Numeral.read? t with
    | none => rfl
    | some found => rfl
  refine ⟨fun negative h => ?_, fun hword => ?_⟩
  · obtain rfl : (takeSign t).1 = negative := by
      obtain ⟨sign, rest, hsign, rfl⟩ := h
      exact congrArg Prod.fst (takeSign_append hsign (by rintro _ ⟨⟩; decide))
    rw [hlead, if_pos ((isPrefixOf_infinity_iff t).mpr h)]
  · rw [if_neg ((isPrefixOf_infinity_iff t).not.mpr (hword _))] at hlead
    refine ⟨fun p hp hfront => ?_, fun hnone => ?_⟩
    · obtain ⟨n, rest, hread, -⟩ := exists_read?_of_isNumeral hp hfront
      obtain ⟨q, hq, hspelled, hlongest⟩ := longestNumeral_of_read? hread
      rw [hread] at hlead
      exact ⟨q, n, rest, hlongest, hq, hread, hspelled.readWhole?, hlead⟩
    · cases hread : Numeral.read? t with
      | none =>
        rw [hlead, hread]
        rfl
      | some found =>
        obtain ⟨q, hq, hspelled, -⟩ := longestNumeral_of_read? hread
        exact (hnone q ⟨_, hspelled⟩ ⟨_, hq.symm⟩).elim

/-- A point with digits and an exponent mark without any, the word with a sign, and a text in which
no numeral stands at the front. -/
theorem leadingNumber_longest_partial :
    (∃ q rest, LongestNumeral "-2.5e+é".toList q ∧ q ++ rest = "-2.5e+é".toList ∧
      readWhole? q = some (⟨true, ['2'], ['5'], 0⟩ : Numeral).value ∧
      leadingNumber " -2.5e+é" = (⟨true, ['2'], ['5'], 0⟩ : Numeral).value) ∧
    leadingNumber "\n+Infinity!" = infinity ∧ leadingNumber "-.e5" = notANumber := by
  have hblank : Text.trimFront " -2.5e+é".toList = "-2.5e+é".toList := by decide
  have hbreak : Text.trimFront "\n+Infinity!".toList = "+Infinity!".toList := by decide
  have hpoint : Text.trimFront "-.e5".toList = "-.e5".toList := by decide
  have hfirst : ∀ (c : Char) (cs : List Char), c ≠ 'I' →
      ∀ negative, ¬ StartsInfinity negative ('-' :: c :: cs) := by
    rintro c cs hne negative ⟨sign, rest, hsign, h⟩
    cases hsign <;> cases h
    exact hne rfl
  refine ⟨?_, ?_, ?_⟩
  · have hnumeral : IsNumeral "-2.5".toList :=
      ⟨_, .parts .minus (.point (w := ['2']) (f := ['5']) (by simp [DigitRun]) (by simp)) .none⟩
    have hread : Numeral.read? "-2.5e+é".toList = some (⟨true, ['2'], ['5'], 0⟩, "e+é".toList) := by
      decide
    have h := leadingNumber_longest " -2.5e+é"
    rw [hblank] at h
    obtain ⟨q, n, rest, hlongest, hq, hn, hwhole, hvalue⟩ :=
      (h.2 (hfirst '2' _ (by decide))).1 _ hnumeral ⟨"e+é".toList, rfl⟩
    rw [hread] at hn
    cases hn
    exact ⟨q, _, hlongest, hq.symm, hwhole, hvalue⟩
  · have h := leadingNumber_longest "\n+Infinity!"
    rw [hbreak] at h
    exact h.1 false ⟨['+'], ['!'], .plus, rfl⟩
  · have h := leadingNumber_longest "-.e5"
    rw [hpoint] at h
    have hread : Numeral.read? "-.e5".toList = none := by decide
    have hother := h.2 (hfirst '.' _ (by decide))
    refine hother.2 fun p hp hfront => ?_
    obtain ⟨q, n, rest, -, -, hn, -⟩ := hother.1 p hp hfront
    rw [hread] at hn
    cases hn

end ActiveMarkup.Value
