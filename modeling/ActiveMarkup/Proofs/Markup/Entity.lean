import ActiveMarkup.Markup.Entity
import ActiveMarkup.Proofs.Text.Cut
set_option autoImplicit false

namespace ActiveMarkup.Markup

theorem decode_cons {c : Char} (h : c ≠ '&') (cs : List Char) :
    decode (c :: cs) = c :: decode cs := by
  rw [decode, if_neg (by simpa using h)]

theorem reference?_append {name : List Char} {c : Char} (hname : referenced? name = some c)
    (hmark : ';' ∉ name) (hbytes : 1 + Text.byteSize name ≤ referenceSpan) (rest : List Char) :
    reference? (name ++ ';' :: rest) = some (c, name.length + 1) := by
  have hlength : name.length < referenceSpan := by
    have hle := Text.length_le_byteSize name
    omega
  have htake : (name ++ ';' :: rest).take referenceSpan =
      name ++ ';' :: rest.take (referenceSpan - name.length - 1) := by
    rw [List.take_append, List.take_of_length_le (by omega)]
    obtain ⟨n, hn⟩ : ∃ n, referenceSpan - name.length = n + 1 :=
      ⟨referenceSpan - name.length - 1, by omega⟩
    rw [hn, List.take_succ_cons, Nat.add_sub_cancel]
  rw [reference?, htake, Text.cutAt_append_mark hmark]
  simp only [hbytes, if_true, hname, Option.map_some]

theorem decode_reference (name : List Char) {c : Char} (hname : referenced? name = some c)
    (hmark : ';' ∉ name) (hbytes : 1 + Text.byteSize name ≤ referenceSpan) (rest : List Char) :
    decode ('&' :: (name ++ ';' :: rest)) = c :: decode rest := by
  have hdrop : (name ++ ';' :: rest).drop (name.length + 1) = rest := by
    rw [List.drop_append, List.drop_of_length_le (by omega), Nat.add_sub_cancel_left]
    rfl
  rw [decode, reference?_append hname hmark hbytes rest]
  simp [hdrop]

theorem escape_cons (place : Place) (c : Char) (cs : List Char) :
    escape place (c :: cs) = escapeChar place c ++ escape place cs :=
  List.flatMap_cons

theorem escape_append (place : Place) (a b : List Char) :
    escape place (a ++ b) = escape place a ++ escape place b :=
  List.flatMap_append

theorem decode_escape (place : Place) (cs : List Char) : decode (escape place cs) = cs := by
  induction cs with
  | nil => simp [escape, decode]
  | cons c cs ih =>
    rw [escape_cons]
    unfold escapeChar
    split
    · exact (decode_reference "amp".toList rfl (by decide) (by decide) _).trans
        (congrArg _ ih)
    · exact (decode_reference "lt".toList rfl (by decide) (by decide) _).trans
        (congrArg _ ih)
    · exact (decode_reference "gt".toList rfl (by decide) (by decide) _).trans
        (congrArg _ ih)
    · exact (decode_reference "quot".toList rfl (by decide) (by decide) _).trans
        (congrArg _ ih)
    next hamp _ _ _ => exact (decode_cons hamp _).trans (congrArg _ ih)

def Place.ends : Place → Char
  | .content => '<'
  | .attribute => '"'

theorem mem_escape {place : Place} {mark : Char} {cs : List Char} (h : mark ∈ escape place cs) :
    escapeChar place mark = [mark] ∨ mark ∈ "&amp;&lt;&gt;&quot;".toList := by
  obtain ⟨c, -, hc⟩ := List.mem_flatMap.mp h
  have hcases : escapeChar place c = [c] ∨ escapeChar place c ⊆ "&amp;&lt;&gt;&quot;".toList := by
    unfold escapeChar
    split
    · exact .inr (by decide)
    · exact .inr (by decide)
    · exact .inr (by decide)
    · exact .inr (by decide)
    · exact .inl rfl
  rcases hcases with hself | hreference
  · rw [hself, List.mem_singleton] at hc
    exact .inl (hc ▸ hself)
  · exact .inr (hreference hc)

theorem ends_not_mem_escape (place : Place) (cs : List Char) : place.ends ∉ escape place cs := by
  intro h
  have hmem := mem_escape h
  revert hmem
  cases place <;> decide

theorem escape_eq_nil_iff (place : Place) (cs : List Char) : escape place cs = [] ↔ cs = [] := by
  cases cs with
  | nil => simp [escape]
  | cons c cs =>
    refine iff_of_false (fun h => ?_) (by simp)
    have hne : escapeChar place c ≠ [] := by
      unfold escapeChar
      split <;> simp
    rw [escape_cons, List.append_eq_nil_iff] at h
    exact hne h.1

theorem decode_ne_nil {cs : List Char} (h : cs ≠ []) : decode cs ≠ [] := by
  cases cs with
  | nil => exact (h rfl).elim
  | cons c cs =>
    rw [decode]
    split
    · split <;> simp
    · simp

end ActiveMarkup.Markup
