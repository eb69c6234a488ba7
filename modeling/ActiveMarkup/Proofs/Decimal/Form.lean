import ActiveMarkup.Decimal.Numeral
import Mathlib.Data.List.TakeWhile
set_option autoImplicit false

namespace ActiveMarkup.Decimal

def DigitRun (cs : List Char) : Prop :=
  cs ≠ [] ∧ ∀ c ∈ cs, c.isDigit = true

inductive Sign : Bool → List Char → Prop where
  | none : Sign false []
  | plus : Sign false ['+']
  | minus : Sign true ['-']

/-- The digits before and after a point, with a digit on one side of it at least; without a point
all digits stand before it. -/
inductive Mantissa : List Char → List Char → List Char → Prop where
  | whole {w : List Char} : DigitRun w → Mantissa w [] w
  | point {w f : List Char} : DigitRun w → (∀ c ∈ f, c.isDigit = true) →
      Mantissa w f (w ++ '.' :: f)
  | fraction {f : List Char} : DigitRun f → Mantissa [] f ('.' :: f)

inductive Exponent : Int → List Char → Prop where
  | none : Exponent 0 []
  | marked {mark : Char} {negative : Bool} {sign ds : List Char} : mark = 'e' ∨ mark = 'E' →
      Sign negative sign → DigitRun ds →
      Exponent (if negative then -(digitsValue 0 ds : Int) else digitsValue 0 ds)
        (mark :: (sign ++ ds))

inductive Numeral.Spelled : Numeral → List Char → Prop where
  | parts {negative : Bool} {w f s m t : List Char} {x : Int} : Sign negative s → Mantissa w f m →
      Exponent x t → Spelled ⟨negative, w, f, x⟩ (s ++ (m ++ t))

def IsNumeral (cs : List Char) : Prop := ∃ n : Numeral, n.Spelled cs

section

variable {negative : Bool} {s ds cs : List Char}

theorem takeDigits_append (h : ∀ c ∈ ds, c.isDigit = true) (rest : List Char) :
    takeDigits (ds ++ rest) = (ds ++ (takeDigits rest).1, (takeDigits rest).2) :=
  Prod.ext (List.takeWhile_append_of_pos h) (List.dropWhile_append_of_pos h)

theorem takeDigits_stop (h : ∀ c ∈ cs.head?, c.isDigit = false) : takeDigits cs = ([], cs) := by
  cases cs with
  | nil => rfl
  | cons c cs =>
    have hc : ¬ c.isDigit = true := by simp [h c rfl]
    exact Prod.ext (List.takeWhile_cons_of_neg hc) (List.dropWhile_cons_of_neg hc)

theorem takeDigits_parts (cs : List Char) :
    cs = (takeDigits cs).1 ++ (takeDigits cs).2 ∧ ∀ c ∈ (takeDigits cs).1, c.isDigit = true :=
  ⟨List.takeWhile_append_dropWhile.symm, fun _ hc => List.mem_takeWhile_imp hc⟩

theorem takeDigits_suffix (cs : List Char) : (takeDigits cs).2 <:+ cs :=
  List.dropWhile_suffix _

theorem takeSign_append (h : Sign negative s) (hcs : ∀ c ∈ cs.head?, c ≠ '+' ∧ c ≠ '-') :
    takeSign (s ++ cs) = (negative, cs) := by
  cases h with
  | plus | minus => rfl
  | none =>
    cases cs with
    | nil => rfl
    | cons c cs =>
      obtain ⟨hplus, hminus⟩ := hcs c rfl
      simp [takeSign, hplus, hminus]

theorem takeSign_spelled (cs : List Char) :
    ∃ s, Sign (takeSign cs).1 s ∧ cs = s ++ (takeSign cs).2 := by
  unfold takeSign
  split
  · exact ⟨['+'], .plus, rfl⟩
  · exact ⟨['-'], .minus, rfl⟩
  · exact ⟨[], .none, rfl⟩

theorem head_append_digits (h : DigitRun ds) (rest : List Char) :
    ∃ d more, ds ++ rest = d :: more ∧ d.isDigit = true := by
  cases ds with
  | nil => exact (h.1 rfl).elim
  | cons d ds => exact ⟨d, ds ++ rest, rfl, h.2 d List.mem_cons_self⟩

theorem not_sign_of_isDigit {c : Char} (h : c.isDigit = true) : c ≠ '+' ∧ c ≠ '-' := by
  constructor <;> rintro rfl <;> cases h

end

def takeMantissa (cs : List Char) : List Char × List Char × List Char :=
  let (w, rest) := takeDigits cs
  (w, takeFraction rest)

theorem takeFraction_suffix (cs : List Char) : (takeFraction cs).2 <:+ cs := by
  unfold takeFraction
  split
  · exact (takeDigits_suffix _).trans (List.suffix_cons _ _)
  · exact List.suffix_rfl

theorem takeFraction_stop {cs : List Char} (h : ∀ c ∈ cs.head?, c ≠ '.') :
    takeFraction cs = ([], cs) := by
  unfold takeFraction
  split
  · exact (h '.' rfl rfl).elim
  · rfl

/-- At least the digits are taken, whatever follows them, and no more if neither a digit nor a point
does. -/
theorem takeMantissa_append {w f m : List Char} (h : Mantissa w f m) (rest : List Char) :
    ∃ w' f' rest', takeMantissa (m ++ rest) = (w', f', rest') ∧ (w' ≠ [] ∨ f' ≠ []) ∧
      rest' <:+ rest ∧
      ((∀ c ∈ rest.head?, c.isDigit = false ∧ c ≠ '.') → w' = w ∧ f' = f ∧ rest' = rest) := by
  have hpoint : ∀ cs : List Char, takeDigits ('.' :: cs) = ([], '.' :: cs) := fun cs =>
    takeDigits_stop (by rintro _ ⟨⟩; rfl)
  cases h with
  | whole hw =>
    refine ⟨_, _, _, by rw [takeMantissa, takeDigits_append hw.2], ?_, ?_, fun hstop => ?_⟩
    · exact .inl fun hnil => hw.1 (List.append_eq_nil_iff.mp hnil).1
    · exact (takeFraction_suffix _).trans (takeDigits_suffix rest)
    · rw [takeDigits_stop fun c hc => (hstop c hc).1, takeFraction_stop fun c hc => (hstop c hc).2]
      exact ⟨List.append_nil w, rfl, rfl⟩
  | point hw hf =>
    refine ⟨w, f ++ (takeDigits rest).1, _, ?_, ?_, takeDigits_suffix rest, fun hstop => ?_⟩
    · rw [List.append_assoc, List.cons_append, takeMantissa, takeDigits_append hw.2, hpoint,
        List.append_nil]
      exact congrArg (Prod.mk w) (takeDigits_append hf rest)
    · exact .inl hw.1
    · rw [takeDigits_stop fun c hc => (hstop c hc).1]
      exact ⟨rfl, List.append_nil f, rfl⟩
  | fraction hf =>
    refine ⟨[], f ++ (takeDigits rest).1, _, ?_, ?_, takeDigits_suffix rest, fun hstop => ?_⟩
    · rw [List.cons_append, takeMantissa, hpoint]
      exact congrArg (Prod.mk []) (takeDigits_append hf.2 rest)
    · exact .inr fun hnil => hf.1 (List.append_eq_nil_iff.mp hnil).1
    · rw [takeDigits_stop fun c hc => (hstop c hc).1]
      exact ⟨rfl, List.append_nil f, rfl⟩

theorem takeMantissa_spelled {cs w f rest : List Char} (h : takeMantissa cs = (w, f, rest))
    (hne : w ≠ [] ∨ f ≠ []) : ∃ m, Mantissa w f m ∧ cs = m ++ rest := by
  obtain ⟨hcs, hw⟩ := takeDigits_parts cs
  unfold takeMantissa at h
  generalize takeDigits cs = taken at h hcs hw
  obtain ⟨w, after⟩ := taken
  obtain ⟨rfl, hfraction⟩ := Prod.mk.inj h
  unfold takeFraction at hfraction
  split at hfraction
  next more =>
    obtain ⟨hmore, hf⟩ := takeDigits_parts more
    rw [hfraction] at hmore hf
    cases w with
    | nil =>
      refine ⟨'.' :: f, .fraction ⟨?_, hf⟩, by rw [hcs, hmore]; rfl⟩
      exact hne.resolve_left (fun h => h rfl)
    | cons d w =>
      refine ⟨d :: w ++ '.' :: f, .point ⟨by simp, hw⟩ hf, ?_⟩
      rw [hcs, hmore, List.append_assoc]
      rfl
  next =>
    obtain ⟨rfl, rfl⟩ := Prod.mk.inj hfraction
    exact ⟨w, .whole ⟨hne.resolve_right (fun h => h rfl), hw⟩, hcs⟩

theorem head_append_mantissa {w f m : List Char} (h : Mantissa w f m) (rest : List Char) :
    ∃ c more, m ++ rest = c :: more ∧ (c.isDigit = true ∨ c = '.') := by
  cases h with
  | whole hw =>
    obtain ⟨d, more, hhead, hd⟩ := head_append_digits hw rest
    exact ⟨d, more, hhead, .inl hd⟩
  | point hw =>
    obtain ⟨d, more, hhead, hd⟩ := head_append_digits hw ('.' :: f ++ rest)
    exact ⟨d, more, by rw [List.append_assoc, hhead], .inl hd⟩
  | fraction => exact ⟨'.', f ++ rest, rfl, .inr rfl⟩

theorem takeSign_mantissa {negative : Bool} {w f s m : List Char} (hs : Sign negative s)
    (hm : Mantissa w f m) (rest : List Char) :
    takeSign (s ++ (m ++ rest)) = (negative, m ++ rest) := by
  obtain ⟨c, more, hhead, hc⟩ := head_append_mantissa hm rest
  refine takeSign_append hs ?_
  rw [hhead]
  rintro _ ⟨⟩
  rcases hc with hd | rfl
  · exact not_sign_of_isDigit hd
  · decide

theorem Exponent.head {x : Int} {t : List Char} (h : Exponent x t) (rest : List Char) :
    t = [] ∨ ∀ c ∈ (t ++ rest).head?, c.isDigit = false ∧ c ≠ '.' := by
  cases h with
  | none => exact .inl rfl
  | marked hmark =>
    right
    rintro _ ⟨⟩
    rcases hmark with rfl | rfl <;> exact ⟨rfl, by decide⟩

theorem takeExponent_mark {mark : Char} (h : mark = 'e' ∨ mark = 'E') (cs : List Char) :
    takeExponent (mark :: cs) =
      let (negative, rest) := takeSign cs
      let (ds, rest) := takeDigits rest
      if ds.isEmpty then (0, mark :: cs)
      else (if negative then -(digitsValue 0 ds : Int) else digitsValue 0 ds, rest) := by
  rcases h with rfl | rfl <;> rfl

theorem takeExponent_stop {cs : List Char} (h : ∀ c ∈ cs.head?, c ≠ 'e' ∧ c ≠ 'E') :
    takeExponent cs = (0, cs) := by
  cases cs with
  | nil => rfl
  | cons c cs => simp [takeExponent, h c rfl]

theorem takeExponent_spelled (cs : List Char) :
    ∃ t, Exponent (takeExponent cs).1 t ∧ cs = t ++ (takeExponent cs).2 := by
  by_cases hmark : ∃ mark more, cs = mark :: more ∧ (mark = 'e' ∨ mark = 'E')
  · obtain ⟨mark, more, rfl, hmark⟩ := hmark
    obtain ⟨s, hs, hmore⟩ := takeSign_spelled more
    obtain ⟨hrest, hds⟩ := takeDigits_parts (takeSign more).2
    rw [takeExponent_mark hmark]
    dsimp only
    split
    · exact ⟨[], .none, rfl⟩
    next hne =>
      refine ⟨mark :: (s ++ (takeDigits (takeSign more).2).1), .marked hmark hs ⟨?_, hds⟩, ?_⟩
      · simpa using hne
      · rw [List.cons_append, List.append_assoc, ← hrest, ← hmore]
  · have hstop : ∀ c ∈ cs.head?, c ≠ 'e' ∧ c ≠ 'E' := by
      intro c hc
      obtain ⟨more, rfl⟩ := List.head?_eq_some_iff.mp hc
      exact not_or.mp fun h => hmark ⟨c, more, rfl, h⟩
    rw [takeExponent_stop hstop]
    exact ⟨[], .none, rfl⟩

theorem takeExponent_suffix (cs : List Char) : (takeExponent cs).2 <:+ cs := by
  obtain ⟨t, -, ht⟩ := takeExponent_spelled cs
  exact ⟨t, ht.symm⟩

theorem takeExponent_append {x : Int} {t : List Char} (h : Exponent x t) (rest : List Char) :
    (takeExponent (t ++ rest)).2 <:+ rest ∧ (rest = [] → takeExponent (t ++ rest) = (x, [])) := by
  cases h with
  | none => exact ⟨takeExponent_suffix rest, by rintro rfl; rfl⟩
  | @marked mark negative s ds hmark hs hds =>
    obtain ⟨d, more, hhead, hd⟩ := head_append_digits hds rest
    have hsign : takeSign (s ++ (ds ++ rest)) = (negative, ds ++ rest) := by
      refine takeSign_append hs ?_
      rw [hhead]
      rintro _ ⟨⟩
      exact not_sign_of_isDigit hd
    have hne : (ds ++ (takeDigits rest).1).isEmpty = false := by simp [hds.1]
    rw [List.cons_append, List.append_assoc, takeExponent_mark hmark, hsign]
    dsimp only
    rw [takeDigits_append hds.2]
    simp only [hne]
    refine ⟨takeDigits_suffix rest, ?_⟩
    rintro rfl
    simp [takeDigits]

end ActiveMarkup.Decimal
