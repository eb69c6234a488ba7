import ActiveMarkup.Proofs.Markup.Assembly
set_option autoImplicit false

namespace ActiveMarkup.Markup

def Tree.isText : Tree → Bool
  | .text _ => true
  | _ => false

def Apart : List Tree → Prop
  | [] => True
  | t :: ts => (t.isText = true → ts.head?.any Tree.isText = false) ∧ Apart ts

def joinText : Tree → List Tree → List Tree
  | .text a, .text b :: rest => .text (a ++ b) :: rest
  | t, ts => t :: ts

mutual

def merge : Tree → Tree
  | .element tag attributes style children => .element tag attributes style (mergeAll children)
  | .text s => .text s
  | .comment s => .comment s

def mergeAll : List Tree → List Tree
  | [] => []
  | t :: ts => joinText (merge t) (mergeAll ts)

end

theorem joinText_cases (t : Tree) (ts : List Tree) :
    (∃ a b rest, t = .text a ∧ ts = .text b :: rest ∧
      joinText t ts = .text (a ++ b) :: rest) ∨
    ((t.isText = true → ts.head?.any Tree.isText = false) ∧ joinText t ts = t :: ts) := by
  unfold joinText
  split
  next a b rest => exact .inl ⟨a, b, rest, rfl, rfl, rfl⟩
  next hno =>
    refine .inr ⟨fun htext => ?_, rfl⟩
    cases t with
    | text a =>
      cases ts with
      | nil => rfl
      | cons first rest =>
        cases first with
        | text b => exact (hno a b rest rfl rfl).elim
        | element tag attributes style children => rfl
        | comment s => rfl
    | element tag attributes style children => cases htext
    | comment s => cases htext

theorem Apart.joinText {t : Tree} {ts : List Tree} (h : Apart ts) : Apart (joinText t ts) := by
  rcases joinText_cases t ts with ⟨a, b, rest, rfl, rfl, hjoin⟩ | ⟨hnext, hjoin⟩
  · rw [hjoin]
    exact ⟨fun _ => h.1 rfl, h.2⟩
  · rw [hjoin]
    exact ⟨hnext, h⟩

theorem Printable.joinText {apart : List Tree → Prop} {t : Tree} {ts : List Tree}
    (ht : Printable apart t) (hts : ∀ t ∈ ts, Printable apart t) :
    ∀ t' ∈ joinText t ts, Printable apart t' := by
  intro t' ht'
  rcases joinText_cases t ts with ⟨a, b, rest, rfl, rfl, hjoin⟩ | ⟨-, hjoin⟩
  · rw [hjoin] at ht'
    rcases List.mem_cons.mp ht' with rfl | ht'
    · cases ht with
      | text ha => exact .text (by simp [ha])
    · exact hts t' (List.mem_cons_of_mem _ ht')
  · rw [hjoin] at ht'
    rcases List.mem_cons.mp ht' with rfl | ht'
    · exact ht
    · exact hts t' ht'

theorem mergeAll_printable {ts : List Tree} (h : ∀ t ∈ ts, Printable Apart (merge t)) :
    (∀ t ∈ mergeAll ts, Printable Apart t) ∧ Apart (mergeAll ts) := by
  induction ts with
  | nil => exact ⟨by simp [mergeAll], trivial⟩
  | cons t ts ih =>
    obtain ⟨hall, hapart⟩ := ih fun t' ht' => h t' (List.mem_cons_of_mem _ ht')
    rw [mergeAll]
    exact ⟨(h t List.mem_cons_self).joinText hall, hapart.joinText⟩

theorem merge_printable {apart : List Tree → Prop} {t : Tree} (h : Printable apart t) :
    Printable Apart (merge t) := by
  induction h with
  | text hs => exact .text hs
  | comment hs => exact .comment hs
  | leaf hw => exact .leaf hw
  | raw hs hv => exact .raw hs hv
  | branch ho _ _ ih =>
    obtain ⟨hall, hapart⟩ := mergeAll_printable ih
    exact .branch ho hapart hall

theorem renderAll_joinText (raw : Bool) (t : Tree) (ts : List Tree) :
    renderAll raw (joinText t ts) = render raw t ++ renderAll raw ts := by
  rcases joinText_cases t ts with ⟨a, b, rest, rfl, rfl, hjoin⟩ | ⟨-, hjoin⟩
  · rw [hjoin, ← String.toList_inj]
    cases raw <;> simp [renderAll, render, escape_append]
  · rw [hjoin, renderAll]

mutual

theorem render_merge (raw : Bool) : ∀ t : Tree, render raw (merge t) = render raw t
  | .text s => rfl
  | .comment s => rfl
  | .element tag attributes style children => by
    rw [merge, render, render, renderAll_mergeAll _ children]

theorem renderAll_mergeAll (raw : Bool) : ∀ ts : List Tree,
    renderAll raw (mergeAll ts) = renderAll raw ts
  | [] => rfl
  | t :: ts => by
    rw [mergeAll, renderAll_joinText, render_merge raw t, renderAll_mergeAll raw ts, renderAll]

end

end ActiveMarkup.Markup
