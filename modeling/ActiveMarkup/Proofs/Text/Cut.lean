import ActiveMarkup.Text.Blank
import ActiveMarkup.Text.Cut
import Mathlib.Data.List.TakeWhile
set_option autoImplicit false

namespace ActiveMarkup.Text

variable {mark : Char} {cs before after rest word : List Char}

theorem takeWhile_append_stop {p : Char → Bool} {c : Char} (h : ∀ a ∈ cs, p a = true)
    (hc : p c = false) : (cs ++ c :: rest).takeWhile p = cs := by
  rw [List.takeWhile_append_of_pos h, List.takeWhile_cons_of_neg (by simp [hc]), List.append_nil]

theorem takeWhile_append_head {p : Char → Bool} (h : ∀ a ∈ cs, p a = true)
    (hstop : ∀ a ∈ rest.head?, p a = false) : (cs ++ rest).takeWhile p = cs := by
  cases rest with
  | nil => rw [List.append_nil, List.takeWhile_eq_self_iff.mpr h]
  | cons a rest => exact takeWhile_append_stop h (hstop a rfl)

theorem dropWhile_append_stop {p : Char → Bool} {c : Char} (h : ∀ a ∈ cs, p a = true)
    (hc : p c = false) : (cs ++ c :: rest).dropWhile p = c :: rest := by
  rw [List.dropWhile_append_of_pos h, List.dropWhile_cons_of_neg (by simp [hc])]

theorem ne_mark_of_not_mem (h : mark ∉ cs) : ∀ a ∈ cs, (a != mark) = true := by
  intro a ha
  have hne : a ≠ mark := by
    rintro rfl
    exact h ha
  simpa using hne

theorem cutAt_append_mark (h : mark ∉ cs) : cutAt mark (cs ++ mark :: rest) = some (cs, rest) := by
  have hne := ne_mark_of_not_mem h
  rw [cutAt, dropWhile_append_stop hne (by simp), takeWhile_append_stop hne (by simp)]

theorem not_mem_of_cutAt (h : cutAt mark cs = some (before, after)) : mark ∉ before := by
  unfold cutAt at h
  split at h
  · cases h
  · cases h
    intro hm
    have hne := List.mem_takeWhile_imp hm
    simp at hne

theorem partsAt_append_mark (h : mark ∉ cs) :
    partsAt mark (cs ++ mark :: rest) = cs :: partsAt mark rest := by
  induction cs with
  | nil => simp [partsAt]
  | cons c cs ih =>
    have hc : (c == mark) = false := by
      have hne : c ≠ mark := by
        rintro rfl
        exact h List.mem_cons_self
      simpa using hne
    have hcs : mark ∉ cs := fun hm => h (List.mem_cons_of_mem _ hm)
    rw [List.cons_append, partsAt, hc, ih hcs]
    rfl

theorem not_mem_of_mem_partsAt {part : List Char} (h : part ∈ partsAt mark cs) :
    mark ∉ part := by
  induction cs generalizing part with
  | nil =>
    cases List.mem_singleton.mp h
    exact List.not_mem_nil
  | cons c cs ih =>
    unfold partsAt at h
    split at h
    · rcases List.mem_cons.mp h with rfl | h
      · exact List.not_mem_nil
      · exact ih h
    next hc =>
      have hne : mark ≠ c := by
        rintro rfl
        simp at hc
      split at h
      next hp =>
        cases List.mem_singleton.mp h
        simpa using hne
      next first parts hp =>
        rcases List.mem_cons.mp h with rfl | h
        · have hfirst : mark ∉ first := ih (by rw [hp]; exact List.mem_cons_self)
          simp [hne, hfirst]
        · exact ih (by rw [hp]; exact List.mem_cons_of_mem _ h)

/-- Nothing starts within a text that is followed by another one. -/
def NoStart (starts : List Char → Bool) (cs rest : List Char) : Prop :=
  ∀ a b, cs = a ++ b → b ≠ [] → starts (b ++ rest) = false

theorem NoStart.tail {starts : List Char → Bool} {c : Char} (h : NoStart starts (c :: cs) rest) :
    NoStart starts cs rest := by
  intro a b hab hb
  exact h (c :: a) b (by rw [hab, List.cons_append]) hb

theorem breakWhere_append {starts : List Char → Bool} (h : NoStart starts cs rest)
    (hrest : rest = [] ∨ starts rest = true) (before : List Char) :
    breakWhere starts before (cs ++ rest) = (before.reverse ++ cs, rest) := by
  induction cs generalizing before with
  | nil =>
    rcases hrest with rfl | hs
    · simp [breakWhere]
    · cases rest with
      | nil => simp [breakWhere]
      | cons c rest => simp [breakWhere, hs]
  | cons c cs ih =>
    have hc : starts (c :: (cs ++ rest)) = false := h [] (c :: cs) rfl (by simp)
    rw [List.cons_append, breakWhere, hc]
    simp [ih h.tail]

theorem breakWhere_spec (starts : List Char → Bool) (before cs : List Char) :
    ∃ a b, breakWhere starts before cs = (before.reverse ++ a, b) ∧ cs = a ++ b ∧
      NoStart starts a b ∧ (b = [] ∨ starts b = true) := by
  induction cs generalizing before with
  | nil => exact ⟨[], [], by simp [breakWhere], rfl, by intro a b hab hb; simp_all, .inl rfl⟩
  | cons c cs ih =>
    by_cases hc : starts (c :: cs) = true
    · exact ⟨[], c :: cs, by simp [breakWhere, hc], rfl, by intro a b hab hb; simp_all,
        .inr hc⟩
    · obtain ⟨a, b, hbreak, rfl, hno, hb⟩ := ih (c :: before)
      refine ⟨c :: a, b, by simp [breakWhere, hc, hbreak], rfl, ?_, hb⟩
      intro u v huv hv
      cases u with
      | nil =>
        rw [List.nil_append] at huv
        rw [← huv]
        simpa using hc
      | cons d u =>
        rw [List.cons_append, List.cons.injEq] at huv
        exact hno u v huv.2 hv

theorem NoStart.isPrefixOf_congr (h : NoStart (word.isPrefixOf ·) cs (word ++ rest))
    (rest' : List Char) : NoStart (word.isPrefixOf ·) cs (word ++ rest') := by
  intro a b hab hb
  have hlen : word.length ≤ (b ++ word).length := by simp
  have key : ∀ r, word.isPrefixOf (b ++ (word ++ r)) = word.isPrefixOf (b ++ word) := by
    intro r
    rw [Bool.eq_iff_iff, List.isPrefixOf_iff_prefix, List.isPrefixOf_iff_prefix,
      ← List.append_assoc]
    exact ⟨fun hp => List.prefix_of_prefix_length_le hp (List.prefix_append _ r) hlen,
      fun hp => hp.trans (List.prefix_append _ r)⟩
  have hno : word.isPrefixOf (b ++ (word ++ rest)) = false := h a b hab hb
  change word.isPrefixOf (b ++ (word ++ rest')) = false
  rw [key, ← key rest, hno]

theorem cutAtWord_append (hword : word ≠ []) (h : NoStart (word.isPrefixOf ·) cs (word ++ rest)) :
    cutAtWord word (cs ++ (word ++ rest)) = some (cs, rest) := by
  have hstart : word.isPrefixOf (word ++ rest) = true := by
    rw [List.isPrefixOf_iff_prefix]
    exact List.prefix_append word rest
  rw [cutAtWord, breakWhere_append h (.inr hstart), List.reverse_nil, List.nil_append]
  cases word with
  | nil => exact (hword rfl).elim
  | cons c word => simp

theorem noStart_of_cutAtWord (h : cutAtWord word cs = some (before, after)) (rest' : List Char) :
    NoStart (word.isPrefixOf ·) before (word ++ rest') := by
  obtain ⟨a, b, hbreak, rfl, hno, hb⟩ := breakWhere_spec (word.isPrefixOf ·) [] cs
  rw [cutAtWord, hbreak, List.reverse_nil, List.nil_append] at h
  cases b with
  | nil => cases h
  | cons c b =>
    simp only [Option.some.injEq, Prod.mk.injEq] at h
    obtain ⟨rfl, -⟩ := h
    rcases hb with hb | hb
    · cases hb
    · obtain ⟨r, hr⟩ := List.isPrefixOf_iff_prefix.mp hb
      rw [← hr] at hno
      exact hno.isPrefixOf_congr rest'

theorem trimFront_cons {c : Char} (h : isBlank c = false) (cs : List Char) :
    trimFront (c :: cs) = c :: cs := by
  rw [trimFront, List.dropWhile_cons_of_neg (by simp [h])]

theorem trimFront_blank_cons {c : Char} (h : isBlank c = true) (cs : List Char) :
    trimFront (c :: cs) = trimFront cs := by
  rw [trimFront, List.dropWhile_cons_of_pos h, trimFront]

theorem trimFront_trimFront (cs : List Char) : trimFront (trimFront cs) = trimFront cs := by
  induction cs with
  | nil => rfl
  | cons c cs ih =>
    cases hc : isBlank c with
    | true => rw [trimFront_blank_cons hc, ih]
    | false => rw [trimFront_cons hc, trimFront_cons hc]

theorem trim_blank_cons {c : Char} (h : isBlank c = true) (cs : List Char) :
    trim (c :: cs) = trim cs := by
  rw [trim, trimFront_blank_cons h, trim]

theorem mem_of_mem_trim {c : Char} (h : c ∈ trim cs) : c ∈ cs := by
  have hback : c ∈ trimFront cs := by
    rw [trim, trimBack, List.mem_reverse] at h
    exact List.mem_reverse.mp ((List.dropWhile_sublist _).subset h)
  exact (List.dropWhile_sublist _).subset hback

theorem trimBack_cons {c : Char} (h : isBlank c = false) (cs : List Char) :
    ∃ cs', trimBack (c :: cs) = c :: cs' := by
  rw [trimBack, List.reverse_cons, List.dropWhile_append]
  split
  · exact ⟨[], by simp [h]⟩
  · exact ⟨(cs.reverse.dropWhile isBlank).reverse, by simp⟩

theorem trimBack_trimBack (cs : List Char) : trimBack (trimBack cs) = trimBack cs := by
  rw [trimBack, trimBack, List.reverse_reverse]
  exact congrArg List.reverse (trimFront_trimFront cs.reverse)

theorem trim_trim (cs : List Char) : trim (trim cs) = trim cs := by
  have hfront : trimFront (trim cs) = trim cs := by
    rw [trim]
    cases hc : trimFront cs with
    | nil => rfl
    | cons c rest =>
      have hblank : isBlank c = false := by
        have hself := trimFront_trimFront cs
        rw [hc] at hself
        refine Bool.eq_false_iff.mpr fun hb => ?_
        rw [trimFront_blank_cons hb] at hself
        have hlen := congrArg List.length hself
        have hle : (trimFront rest).length ≤ rest.length :=
          (List.dropWhile_sublist isBlank).length_le
        simp only [List.length_cons] at hlen
        omega
      obtain ⟨cs', hcs'⟩ := trimBack_cons hblank rest
      rw [hcs', trimFront_cons hblank]
  rw [trim, hfront, trim, trimBack_trimBack]

theorem trim_eq_self_of_no_blank (h : ∀ c ∈ cs, isBlank c = false) : trim cs = cs := by
  have hself : ∀ l : List Char, (∀ c ∈ l, isBlank c = false) → l.dropWhile isBlank = l := by
    intro l hl
    cases l with
    | nil => rfl
    | cons c l => exact trimFront_cons (hl c List.mem_cons_self) l
  have hrev : ∀ c ∈ cs.reverse, isBlank c = false := fun c hc => h c (List.mem_reverse.mp hc)
  rw [trim, trimFront, hself cs h, trimBack, hself _ hrev, List.reverse_reverse]

theorem trimFront_eq_self_iff : trimFront cs = cs ↔ ∀ c ∈ cs.head?, isBlank c = false := by
  cases cs with
  | nil => simp [trimFront]
  | cons c cs =>
    cases hc : isBlank c with
    | false => simp [trimFront_cons hc, hc]
    | true =>
      have hle : (trimFront cs).length ≤ cs.length := (List.dropWhile_sublist isBlank).length_le
      refine ⟨fun h => ?_, fun h => by simp [hc] at h⟩
      have hlength := congrArg List.length h
      rw [trimFront_blank_cons hc, List.length_cons] at hlength
      omega

theorem trim_eq_self_iff : trim cs = cs ↔
    trimFront cs = cs ∧ trimFront cs.reverse = cs.reverse := by
  constructor
  · intro h
    have hback : (trim cs).length ≤ (trimFront cs).length := by
      rw [trim, trimBack, List.length_reverse]
      exact (List.dropWhile_sublist isBlank).length_le.trans_eq List.length_reverse
    rw [h] at hback
    have hfront : trimFront cs = cs := (List.dropWhile_suffix isBlank).eq_of_length_le hback
    rw [trim, hfront] at h
    exact ⟨hfront, List.reverse_eq_iff.mp h⟩
  · rintro ⟨hfront, hback⟩
    rw [trim, hfront]
    exact List.reverse_eq_iff.mpr hback

theorem trimFront_flatMap_eq_self_iff {f : Char → List Char}
    (h : ∀ c, ∃ b, (f c).head? = some b ∧ isBlank b = isBlank c) :
    trimFront (cs.flatMap f) = cs.flatMap f ↔ trimFront cs = cs := by
  rw [trimFront_eq_self_iff, trimFront_eq_self_iff]
  cases cs with
  | nil => simp
  | cons c cs =>
    obtain ⟨b, hb, hblank⟩ := h c
    simp [hb, hblank]

theorem trim_flatMap_eq_self_iff {f : Char → List Char}
    (hfirst : ∀ c, ∃ b, (f c).head? = some b ∧ isBlank b = isBlank c)
    (hlast : ∀ c, ∃ b, (f c).getLast? = some b ∧ isBlank b = isBlank c) :
    trim (cs.flatMap f) = cs.flatMap f ↔ trim cs = cs := by
  have hback : ∀ c, ∃ b, ((List.reverse ∘ f) c).head? = some b ∧ isBlank b = isBlank c := by
    simpa using hlast
  rw [trim_eq_self_iff, trim_eq_self_iff, List.reverse_flatMap,
    trimFront_flatMap_eq_self_iff hfirst, trimFront_flatMap_eq_self_iff hback]

theorem foldl_utf8Size (cs : List Char) (n : Nat) :
    cs.foldl (fun n c => n + c.utf8Size) n = n + (String.ofList cs).utf8ByteSize := by
  induction cs generalizing n with
  | nil => rfl
  | cons c cs ih =>
    rw [List.foldl_cons, ih, String.ofList_cons, String.utf8ByteSize_append,
      String.utf8ByteSize_singleton, Nat.add_assoc]

theorem byteSize_eq (cs : List Char) : byteSize cs = (String.ofList cs).utf8ByteSize :=
  (foldl_utf8Size cs 0).trans (Nat.zero_add _)

theorem byteSize_append (cs rest : List Char) :
    byteSize (cs ++ rest) = byteSize cs + byteSize rest := by
  rw [byteSize_eq, byteSize_eq, byteSize_eq, String.ofList_append, String.utf8ByteSize_append]

theorem byteSize_cons (c : Char) (cs : List Char) :
    byteSize (c :: cs) = c.utf8Size + byteSize cs := by
  rw [byteSize_eq, byteSize_eq, String.ofList_cons, String.utf8ByteSize_append,
    String.utf8ByteSize_singleton]

theorem length_le_byteSize (cs : List Char) : cs.length ≤ byteSize cs := by
  induction cs with
  | nil => exact Nat.zero_le _
  | cons c cs ih =>
    have hc := c.utf8Size_pos
    rw [byteSize_cons, List.length_cons]
    omega

end ActiveMarkup.Text
