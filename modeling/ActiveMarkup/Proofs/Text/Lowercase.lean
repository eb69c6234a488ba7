import ActiveMarkup.Proofs.Text.Cut
import Mathlib
set_option autoImplicit false

namespace ActiveMarkup.Text

theorem exists_ofNat {c : Char} {low : Nat} (size : Nat) (hlow : low ≤ c.toNat)
    (hhigh : c.toNat < low + size) : ∃ n : Fin size, c = Char.ofNat (low + n.val) := by
  refine ⟨⟨c.toNat - low, by omega⟩, ?_⟩
  have heq : low + (c.toNat - low) = c.toNat := by omega
  rw [heq, Char.ofNat_toNat]

theorem isUpper_iff (c : Char) : c.isUpper = true ↔ 65 ≤ c.toNat ∧ c.toNat < 91 := by
  simp only [Char.isUpper, decide_eq_true_eq, ge_iff_le, UInt32.le_iff_toNat_le]
  exact and_congr Iff.rfl Nat.lt_succ_iff.symm

theorem isLower_iff (c : Char) : c.isLower = true ↔ 97 ≤ c.toNat ∧ c.toNat < 123 := by
  simp only [Char.isLower, Bool.and_eq_true, decide_eq_true_eq, ge_iff_le,
    UInt32.le_iff_toNat_le]
  exact and_congr Iff.rfl Nat.lt_succ_iff.symm

theorem of_isAlpha {p : Char → Bool} {c : Char}
    (h : ∀ n : Fin 26, p (Char.ofNat (65 + n.val)) = true ∧ p (Char.ofNat (97 + n.val)) = true)
    (hc : c.isAlpha = true) : p c = true := by
  rw [Char.isAlpha, Bool.or_eq_true, isUpper_iff, isLower_iff] at hc
  rcases hc with ⟨hlow, hhigh⟩ | ⟨hlow, hhigh⟩
  · obtain ⟨n, rfl⟩ := exists_ofNat 26 hlow hhigh
    exact (h n).1
  · obtain ⟨n, rfl⟩ := exists_ofNat 26 hlow hhigh
    exact (h n).2

theorem toLower_of_not_isUpper {c : Char} (h : c.isUpper = false) : c.toLower = c := by
  simp only [Char.isUpper, decide_eq_false_iff_not] at h
  rw [Char.toLower, dif_neg h]

theorem toLower_congr {α : Type} {f : Char → α}
    (h : ∀ n : Fin 26, f (Char.ofNat (65 + n.val)).toLower = f (Char.ofNat (65 + n.val)))
    (c : Char) : f c.toLower = f c := by
  by_cases hc : c.isUpper = true
  · obtain ⟨hlow, hhigh⟩ := (isUpper_iff c).mp hc
    obtain ⟨n, rfl⟩ := exists_ofNat 26 hlow hhigh
    exact h n
  · rw [toLower_of_not_isUpper (Bool.eq_false_iff.mpr hc)]

theorem toLower_toLower (c : Char) : c.toLower.toLower = c.toLower :=
  toLower_congr (f := Char.toLower) (by decide) c

theorem isBlank_toLower (c : Char) : isBlank c.toLower = isBlank c :=
  toLower_congr (f := isBlank) (by decide) c

theorem toList_toLower (s : String) : s.toLower.toList = s.toList.map Char.toLower :=
  String.toList_map

theorem string_toLower_toLower (s : String) : s.toLower.toLower = s.toLower := by
  rw [← String.toList_inj, toList_toLower, toList_toLower, List.map_map]
  exact List.map_congr_left fun c _ => toLower_toLower c

theorem trim_map_toLower (cs : List Char) :
    trim (cs.map Char.toLower) = (trim cs).map Char.toLower := by
  have hp : isBlank ∘ Char.toLower = isBlank := funext isBlank_toLower
  simp only [trim, trimFront, trimBack, ← List.map_reverse, List.dropWhile_map, hp]

theorem not_mem_map_toLower {mark : Char} {cs : List Char}
    (hmark : ∀ n : Fin 26, ((Char.ofNat (65 + n.val)).toLower == mark) =
      (Char.ofNat (65 + n.val) == mark))
    (h : mark ∉ cs) : mark ∉ cs.map Char.toLower := by
  intro hm
  obtain ⟨c, hc, hlower⟩ := List.mem_map.mp hm
  have hsame := toLower_congr (f := (· == mark)) hmark c
  simp only [hlower, beq_self_eq_true] at hsame
  exact h (eq_of_beq hsame.symm ▸ hc)

theorem sameIgnoringCase_map_toLower (a b : List Char) :
    sameIgnoringCase (a.map Char.toLower) b = sameIgnoringCase a b := by
  have hmap : (a.map Char.toLower).map Char.toLower = a.map Char.toLower := by
    rw [List.map_map]
    exact List.map_congr_left fun c _ => toLower_toLower c
  rw [sameIgnoringCase, hmap, sameIgnoringCase]

end ActiveMarkup.Text
