import ActiveMarkup.Proofs.Expr.Reading
import ActiveMarkup.Proofs.Selector.Grammar
set_option autoImplicit false

/-!
Reading a selector against its spelling. Each reader takes off exactly a text that spells what it
answers, and it reads every such text back, whatever follows that does not belong to it. Main
statement: a text without commas is accepted exactly when it spells a selector between blanks, and
the selector is the one it spells.
-/

namespace ActiveMarkup.Selector

open ActiveMarkup.Parser (bind_eq_ok)

variable {cs rest : List Char}

theorem ok_bind {α β : Type} (a : α) (f : α → Except Fault β) : (.ok a >>= f) = f a :=
  rfl

theorem takeName_append {name : List Char} (h : IsName name) (hrest : EndsName rest) :
    takeName (name ++ rest) = .ok (String.ofList name, rest) := by
  have htake : (name ++ rest).takeWhile inName = name ∧ (name ++ rest).dropWhile inName = rest := by
    cases rest with
    | nil =>
      rw [List.append_nil]
      exact ⟨List.takeWhile_eq_self_iff.mpr h.chars, List.dropWhile_eq_nil_iff.mpr h.chars⟩
    | cons c rest =>
      have hc : inName c = false := hrest c rfl
      exact ⟨Text.takeWhile_append_stop h.chars hc, Text.dropWhile_append_stop h.chars hc⟩
  simp [takeName, htake.1, htake.2, h.nonempty]

theorem takeName_spells {name : String} (h : takeName cs = .ok (name, rest)) :
    ∃ used, IsName used ∧ name = String.ofList used ∧ cs = used ++ rest := by
  simp only [takeName] at h
  split at h
  · cases h
  next hne =>
    cases h
    refine ⟨cs.takeWhile inName, ⟨by simpa using hne, fun c hc => List.mem_takeWhile_imp hc⟩, rfl,
      List.takeWhile_append_dropWhile.symm⟩

theorem takeValue_append {value : List Char} {v : String} (h : SpellsValue value v)
    (hrest : EndsName rest) : takeValue (value ++ rest) = .ok (v, rest) := by
  cases h with
  | name h =>
    obtain ⟨c, name, rfl⟩ := List.exists_cons_of_ne_nil h.nonempty
    have hc := h.chars c List.mem_cons_self
    have hquotes : (c == '"' || c == '\'') = false := by
      simp [ne_of_inName (x := '"') (by decide) hc, ne_of_inName (x := '\'') (by decide) hc]
    rw [← takeName_append h hrest, List.cons_append, takeValue, hquotes]
    rfl
  | @quoted q cs hq hmem =>
    have hquote : (q == '"' || q == '\'') = true := by simpa using hq
    rw [List.cons_append, takeValue, hquote, List.append_assoc, List.singleton_append,
      Text.cutAt_append_mark hmem]
    rfl

theorem takeValue_spells {v : String} (h : takeValue cs = .ok (v, rest)) :
    ∃ value, SpellsValue value v ∧ cs = value ++ rest := by
  have hname : takeName cs = .ok (v, rest) → ∃ value, SpellsValue value v ∧ cs = value ++ rest := by
    intro h
    obtain ⟨name, hname, rfl, rfl⟩ := takeName_spells h
    exact ⟨name, .name hname, rfl⟩
  unfold takeValue at h
  split at h
  next c cs' =>
    split at h
    next hquote =>
      split at h
      next value rest' hcut =>
        cases h
        refine ⟨c :: (value ++ [c]),
          .quoted (by simpa using hquote) (Text.not_mem_of_cutAt hcut), ?_⟩
        simp [← Text.cutAt_append hcut]
      · cases h
    · exact hname h
  · exact hname h

theorem trimFront_spells (cs : List Char) : ∃ w, AllBlank w ∧ cs = w ++ Text.trimFront cs :=
  ⟨cs.takeWhile Text.isBlank, fun _ hc => List.mem_takeWhile_imp hc,
    List.takeWhile_append_dropWhile.symm⟩

theorem takeTested_append (test : String → AttributeTest) {w₁ value w₂ : List Char} {v : String}
    (hw₁ : AllBlank w₁) (hvalue : SpellsValue value v) (hw₂ : AllBlank w₂) (rest : List Char) :
    takeTested test (w₁ ++ (value ++ (w₂ ++ ']' :: rest))) = .ok (test v, rest) := by
  have hfirst : Text.trimFront (value ++ (w₂ ++ ']' :: rest)) = value ++ (w₂ ++ ']' :: rest) := by
    cases hvalue with
    | name h =>
      obtain ⟨c, name, rfl⟩ := List.exists_cons_of_ne_nil h.nonempty
      exact Text.trimFront_cons (isBlank_of_inName (h.chars c List.mem_cons_self)) _
    | quoted hq _ =>
      rcases hq with rfl | rfl <;> exact Text.trimFront_cons (by decide) _
  have hend : EndsName (w₂ ++ ']' :: rest) := hw₂.endsName (endsName_cons (by decide))
  have hbracket : Text.trimFront (w₂ ++ ']' :: rest) = ']' :: rest := by
    rw [hw₂.trimFront, Text.trimFront_cons (by decide)]
  simp only [takeTested, hw₁.trimFront, hfirst, takeValue_append hvalue hend, ok_bind, hbracket]
  rfl

theorem takeTested_spells {test : String → AttributeTest} {result : AttributeTest}
    (h : takeTested test cs = .ok (result, rest)) :
    ∃ w₁ value w₂ v, AllBlank w₁ ∧ SpellsValue value v ∧ AllBlank w₂ ∧ result = test v ∧
      cs = w₁ ++ (value ++ (w₂ ++ ']' :: rest)) := by
  obtain ⟨⟨v, after⟩, hvalue, h⟩ := bind_eq_ok.mp h
  obtain ⟨value, hspells, hcs⟩ := takeValue_spells hvalue
  obtain ⟨w₁, hw₁, hfront⟩ := trimFront_spells cs
  obtain ⟨w₂, hw₂, hback⟩ := trimFront_spells after
  dsimp only at h
  split at h
  next rest' htrim =>
    cases h
    exact ⟨w₁, value, w₂, v, hw₁, hspells, hw₂, rfl, by rw [← htrim, ← hback, ← hcs, ← hfront]⟩
  · cases h

theorem IsName.trimFront {name : List Char} (h : IsName name) (rest : List Char) :
    Text.trimFront (name ++ rest) = name ++ rest := by
  obtain ⟨c, name, rfl⟩ := List.exists_cons_of_ne_nil h.nonempty
  exact Text.trimFront_cons (isBlank_of_inName (h.chars c List.mem_cons_self)) _

theorem SpellsTest.endsName {sign : List Char} {test : String → AttributeTest}
    (h : SpellsTest sign test) (rest : List Char) :
    EndsName (sign ++ rest) ∧ Text.trimFront (sign ++ rest) = sign ++ rest := by
  cases h <;> exact ⟨endsName_cons (by decide), Text.trimFront_cons (by decide) _⟩

theorem takeAttribute_append {inner : List Char} {condition : String × AttributeTest}
    (h : SpellsAttribute inner condition) (rest : List Char) :
    takeAttribute (inner ++ rest) = .ok (condition, rest) := by
  cases h with
  | present hw₁ hname hw₂ =>
    have hend : EndsName (_ ++ ']' :: rest) := hw₂.endsName (endsName_cons (by decide))
    have hbracket : Text.trimFront (']' :: rest) = ']' :: rest := Text.trimFront_cons (by decide) _
    simp only [List.append_assoc, List.singleton_append, takeAttribute, hw₁.trimFront,
      hname.trimFront, takeName_append hname hend, ok_bind, hw₂.trimFront, hbracket]
    rfl
  | @tested w₁ name w₂ sign w₃ value w₄ test v hw₁ hname hw₂ hsign hw₃ hvalue hw₄ =>
    have htested := takeTested_append test hw₃ hvalue hw₄ rest
    obtain ⟨hends, htrim⟩ := hsign.endsName (w₃ ++ (value ++ (w₄ ++ ']' :: rest)))
    simp only [List.append_assoc, List.singleton_append, takeAttribute, hw₁.trimFront,
      hname.trimFront, takeName_append hname (hw₂.endsName hends), ok_bind, hw₂.trimFront, htrim]
    cases hsign <;> simp only [List.cons_append, List.nil_append, htested, ok_bind] <;> rfl

theorem takeAttribute_spells {condition : String × AttributeTest}
    (h : takeAttribute cs = .ok (condition, rest)) :
    ∃ inner, SpellsAttribute inner condition ∧ cs = inner ++ rest := by
  obtain ⟨⟨name, after⟩, hname, h⟩ := bind_eq_ok.mp h
  obtain ⟨used, hused, rfl, hcs⟩ := takeName_spells hname
  obtain ⟨w₁, hw₁, hfront⟩ := trimFront_spells cs
  obtain ⟨w₂, hw₂, hback⟩ := trimFront_spells after
  have hall : cs = w₁ ++ (used ++ (w₂ ++ Text.trimFront after)) := by
    rw [← hback, ← hcs, ← hfront]
  have htested : ∀ {sign tail : List Char} {make : String → AttributeTest},
      SpellsTest sign make → Text.trimFront after = sign ++ tail →
      (takeTested make tail >>= fun r => pure (((String.ofList used).toLower, r.1), r.2)) =
        .ok (condition, rest) →
      ∃ inner, SpellsAttribute inner condition ∧ cs = inner ++ rest := by
    intro sign tail make hsign htrim h
    obtain ⟨⟨test, rest'⟩, htest, h⟩ := bind_eq_ok.mp h
    cases h
    obtain ⟨w₃, value, w₄, v, hw₃, hvalue, hw₄, rfl, rfl⟩ := takeTested_spells htest
    exact ⟨_, .tested hw₁ hused hw₂ hsign hw₃ hvalue hw₄, by simp [hall, htrim]⟩
  dsimp only at h
  split at h
  next rest' htrim =>
    cases h
    exact ⟨_, .present hw₁ hused hw₂, by simp [hall, htrim]⟩
  next tail htrim => exact htested .equals htrim h
  next tail htrim => exact htested .includes htrim h
  next tail htrim => exact htested .begins htrim h
  next tail htrim => exact htested .ends htrim h
  next tail htrim => exact htested .contains htrim h
  · cases h

theorem EndsCompound.signs {c : Char} (h : EndsCompound (c :: rest)) :
    (Text.isBlank c || c == '>') = true ∧ c ≠ '#' ∧ c ≠ '.' ∧ c ≠ '[' ∧ c ≠ ':' := by
  rcases h c rfl with hb | rfl
  · exact ⟨by simp [hb], ne_of_isBlank (by decide) hb, ne_of_isBlank (by decide) hb,
      ne_of_isBlank (by decide) hb, ne_of_isBlank (by decide) hb⟩
  · decide

theorem exists_succ_of_cons_le {c : Char} {bound : Nat} (h : (c :: cs).length ≤ bound) :
    ∃ room, bound = room + 1 ∧ cs.length ≤ room := by
  obtain _ | room := bound
  · simp at h
  · exact ⟨room, rfl, by simpa using h⟩

theorem takeConditions_append {c c' : Compound} (h : SpellsConditions c cs c')
    (hrest : EndsCompound rest) {bound : Nat} (hbound : cs.length ≤ bound) :
    takeConditions bound c (cs ++ rest) = .ok (c', rest) := by
  induction h generalizing bound with
  | none =>
    cases bound with
    | zero => rfl
    | succ bound =>
      cases rest with
      | nil => rfl
      | cons x rest =>
        obtain ⟨hstop, hid, hclass, hbracket, hcolon⟩ := hrest.signs
        simp [takeConditions, hstop, hid, hclass, hbracket, hcolon]
  | identified hname hmore ih =>
    obtain ⟨room, rfl, hroom⟩ := exists_succ_of_cons_le hbound
    simp only [List.cons_append, List.append_assoc, takeConditions, beq_self_eq_true, if_true,
      takeName_append hname (hmore.endsName hrest), ok_bind]
    exact ih (by simp at hroom; omega)
  | classed hname hmore ih =>
    obtain ⟨room, rfl, hroom⟩ := exists_succ_of_cons_le hbound
    have hsign : ('.' == '#') = false := by decide
    simp only [List.cons_append, List.append_assoc, takeConditions, hsign, beq_self_eq_true,
      Bool.false_eq_true, if_false, if_true, takeName_append hname (hmore.endsName hrest), ok_bind]
    exact ih (by simp at hroom; omega)
  | attributed hinner hmore ih =>
    obtain ⟨room, rfl, hroom⟩ := exists_succ_of_cons_le hbound
    have hsigns : ('[' == '#') = false ∧ ('[' == '.') = false := by decide
    simp only [List.cons_append, List.append_assoc, takeConditions, hsigns.1, hsigns.2,
      beq_self_eq_true, Bool.false_eq_true, if_false, if_true, takeAttribute_append hinner, ok_bind]
    exact ih (by simp at hroom; omega)

theorem takeConditions_spells {c c' : Compound} {bound : Nat} (hbound : cs.length ≤ bound)
    (h : takeConditions bound c cs = .ok (c', rest)) :
    ∃ used, SpellsConditions c used c' ∧ cs = used ++ rest ∧ EndsCompound rest := by
  fun_induction takeConditions bound c cs with
  | case1 c cs =>
    cases h
    cases List.length_eq_zero_iff.mp (Nat.le_zero.mp hbound)
    exact ⟨[], .none, rfl, nofun⟩
  | case2 bound c =>
    cases h
    exact ⟨[], .none, rfl, nofun⟩
  | case3 bound c x cs hx ih =>
    obtain ⟨⟨name, after⟩, hname, hafter⟩ := bind_eq_ok.mp h
    obtain ⟨used, hused, rfl, rfl⟩ := takeName_spells hname
    simp only [List.length_cons, List.length_append] at hbound
    obtain ⟨more, hmore, rfl, hend⟩ := ih _ _ (by omega) hafter
    cases eq_of_beq hx
    exact ⟨_, .identified hused hmore, by simp, hend⟩
  | case4 bound c x cs _ hx ih =>
    obtain ⟨⟨name, after⟩, hname, hafter⟩ := bind_eq_ok.mp h
    obtain ⟨used, hused, rfl, rfl⟩ := takeName_spells hname
    simp only [List.length_cons, List.length_append] at hbound
    obtain ⟨more, hmore, rfl, hend⟩ := ih _ _ (by omega) hafter
    cases eq_of_beq hx
    exact ⟨_, .classed hused hmore, by simp, hend⟩
  | case5 bound c x cs _ _ hx ih =>
    obtain ⟨⟨condition, after⟩, hcondition, hafter⟩ := bind_eq_ok.mp h
    obtain ⟨inner, hinner, rfl⟩ := takeAttribute_spells hcondition
    simp only [List.length_cons, List.length_append] at hbound
    obtain ⟨more, hmore, rfl, hend⟩ := ih _ _ (by omega) hafter
    cases eq_of_beq hx
    exact ⟨_, .attributed hinner hmore, by simp, hend⟩
  | case6 => cases h
  | case7 bound c x cs _ _ _ _ hx =>
    cases h
    exact ⟨[], .none, rfl, by simpa [EndsCompound] using hx⟩
  | case8 => cases h

theorem takeCompound_append {c : Compound} (h : SpellsCompound cs c) (hrest : EndsCompound rest) :
    takeCompound (cs ++ rest) = .ok (c, rest) := by
  cases h with
  | star h => exact takeConditions_append h hrest (by simp)
  | @tag _ first name cs hdigit hname h =>
    have hfirst := hname.chars first List.mem_cons_self
    have hread := takeName_append hname (h.endsName hrest)
    have hstar := ne_of_inName (x := '*') (by decide) hfirst
    rw [List.cons_append] at hread
    rw [List.cons_append, List.append_assoc, takeCompound]
    · simp only [hfirst, hdigit, if_true, hread, ok_bind]
      exact takeConditions_append h hrest (by simp)
    · exact hstar
  | bare hne h =>
    obtain ⟨x, cs, rfl⟩ := List.exists_cons_of_ne_nil hne
    have hx : inName x = false ∧ x ≠ '*' := by cases h <;> decide
    rw [List.cons_append, takeCompound]
    · simp only [hx.1]
      exact takeConditions_append h hrest (by simp)
    · exact hx.2

theorem takeCompound_spells {c : Compound} (hbegins : Begins cs)
    (h : takeCompound cs = .ok (c, rest)) :
    ∃ used, SpellsCompound used c ∧ cs = used ++ rest ∧ EndsCompound rest := by
  unfold takeCompound at h
  split at h
  next more =>
    obtain ⟨used, hused, rfl, hend⟩ := takeConditions_spells le_rfl h
    exact ⟨_, .star hused, rfl, hend⟩
  next x more hstar =>
    split at h
    next hx =>
      split at h
      · cases h
      next hdigit =>
        obtain ⟨⟨name, after⟩, hname, h⟩ := bind_eq_ok.mp h
        obtain ⟨used, hused, rfl, hcs⟩ := takeName_spells hname
        obtain ⟨conditions, hconditions, rfl, hend⟩ := takeConditions_spells le_rfl h
        obtain ⟨first, name, rfl⟩ := List.exists_cons_of_ne_nil hused.nonempty
        cases (List.cons.inj hcs).1
        exact ⟨_, .tag (by simpa using hdigit) hused hconditions, by simp [hcs], hend⟩
    next hx =>
      obtain ⟨used, hused, hcs, hend⟩ := takeConditions_spells (by simp) h
      refine ⟨used, .bare ?_ hused, hcs, hend⟩
      rintro rfl
      obtain ⟨y, hy, hblank, hangle⟩ := hbegins
      rw [hcs] at hy
      rcases hend y hy with hb | rfl
      · rw [hblank] at hb
        cases hb
      · exact hangle rfl
  · obtain ⟨_, hnil, _⟩ := hbegins
    cases hnil

theorem takeRelation_append {between : List Char} {relation : Relation}
    (h : SpellsRelation between relation) (hrest : Begins rest) :
    takeRelation (between ++ rest) = (relation, rest) := by
  obtain ⟨x, hx, hblank, hangle⟩ := hrest
  obtain ⟨rest, rfl⟩ : ∃ more, rest = x :: more := by
    cases rest with
    | nil => cases hx
    | cons y more =>
      cases hx
      exact ⟨more, rfl⟩
  cases h with
  | @descendant c w hc hw =>
    have hall : AllBlank (c :: w) := by
      intro y hy
      rcases List.mem_cons.mp hy with rfl | hy
      · exact hc
      · exact hw y hy
    simp only [takeRelation, hall.trimFront, Text.trimFront_cons hblank]
    split
    next hcons =>
      cases hcons
      exact absurd rfl hangle
    next => rfl
  | child hw hmore =>
    have htrim : ∀ more, Text.trimFront ('>' :: more) = '>' :: more :=
      Text.trimFront_cons (by decide)
    simp only [takeRelation, List.append_assoc, List.cons_append, hw.trimFront, htrim]
    rw [Text.dropWhile_append_stop (by simpa using hmore) (by simp [hblank, hangle])]

theorem takeRelation_spells {relation : Relation} (h : takeRelation cs = (relation, rest))
    (hend : EndsCompound cs) (hne : rest ≠ []) :
    ∃ between, SpellsRelation between relation ∧ cs = between ++ rest ∧ Begins rest := by
  obtain ⟨w, hw, hcs⟩ := trimFront_spells cs
  obtain ⟨y, more, rfl⟩ := List.exists_cons_of_ne_nil hne
  unfold takeRelation at h
  split at h
  next after htrim =>
    obtain ⟨rfl, hdrop⟩ := Prod.mk.inj h
    have hy := List.head?_dropWhile_not (fun c => Text.isBlank c || c == '>') after
    have hsplit := List.takeWhile_append_dropWhile
      (p := fun c => Text.isBlank c || c == '>') (l := after)
    rw [hdrop] at hy hsplit
    simp only [List.head?_cons, Bool.or_eq_false_iff, beq_eq_false_iff_ne] at hy
    have hsigns : ∀ c ∈ after.takeWhile fun c => Text.isBlank c || c == '>',
        Text.isBlank c = true ∨ c = '>' := fun c hc => by simpa using List.mem_takeWhile_imp hc
    refine ⟨_, .child hw hsigns, ?_, begins_cons hy.1 hy.2⟩
    rw [List.append_assoc, List.cons_append, hsplit, ← htrim, ← hcs]
  -- blanks alone: there is one, because a compound ended in front
  next hangle =>
    obtain ⟨rfl, htrim⟩ := Prod.mk.inj h
    rw [htrim] at hcs hangle
    have hy : Text.isBlank y = false := by
      have hfirst := List.head?_dropWhile_not Text.isBlank cs
      rw [← Text.trimFront, htrim] at hfirst
      exact hfirst
    have hne : y ≠ '>' := by
      rintro rfl
      exact hangle _ rfl
    cases w with
    | nil =>
      rcases hend y (by simp [hcs]) with hb | hb
      · rw [hy] at hb
        cases hb
      · exact absurd hb hne
    | cons c w =>
      exact ⟨c :: w, .descendant (hw c List.mem_cons_self)
        fun x hx => hw x (List.mem_cons_of_mem _ hx), hcs, begins_cons hy hne⟩

theorem Begins.ne_nil (h : Begins cs) : cs ≠ [] := by
  rintro rfl
  obtain ⟨_, hnil, _⟩ := h
  cases hnil

theorem trimFront_eq_nil_iff : Text.trimFront cs = [] ↔ AllBlank cs :=
  List.dropWhile_eq_nil_iff

theorem takeChain_spells {s s' : Selector} {bound : Nat} (hbound : cs.length ≤ bound)
    (h : takeChain bound s cs = .ok s') (hend : EndsCompound cs) {used : List Char}
    (hused : Spells used s) :
    ∃ core back, cs = core ++ back ∧ AllBlank back ∧ Spells (used ++ core) s' := by
  induction bound generalizing s cs used with
  | zero =>
    cases h
    cases List.length_eq_zero_iff.mp (Nat.le_zero.mp hbound)
    exact ⟨[], [], rfl, nofun, by simpa using hused⟩
  | succ bound ih =>
    unfold takeChain at h
    split at h
    next hblank =>
      cases h
      refine ⟨[], cs, rfl, trimFront_eq_nil_iff.mp (by simpa using hblank), ?_⟩
      simpa using hused
    · obtain ⟨relation, rest, hrelation⟩ : ∃ relation rest, takeRelation cs = (relation, rest) :=
        ⟨_, _, rfl⟩
      simp only [hrelation] at h
      split at h
      · cases h
      next hne =>
        obtain ⟨⟨compound, after⟩, hcompound, hchain⟩ := bind_eq_ok.mp h
        obtain ⟨between, hbetween, rfl, hbegins⟩ :=
          takeRelation_spells hrelation hend (by simpa using hne)
        obtain ⟨taken, htaken, rfl, hafter⟩ := takeCompound_spells hbegins hcompound
        have hpos := List.length_pos_iff.mpr (hbetween.endsCompound []).1
        have hroom : after.length ≤ bound := by
          simp only [List.length_append] at hbound
          omega
        obtain ⟨core, back, rfl, hback, hcore⟩ :=
          ih hroom hchain hafter (hused.extend hbetween htaken)
        exact ⟨between ++ (taken ++ core), back, by simp, hback, by simpa using hcore⟩

def takeSelector (cs : List Char) : Except Fault Selector := do
  let (compound, rest) ← takeCompound cs
  takeChain rest.length ⟨compound, []⟩ rest

theorem takeSelector_append {s : Selector} (h : Spells cs s) (hrest : EndsCompound rest) :
    ∃ bound, rest.length ≤ bound ∧ takeSelector (cs ++ rest) = takeChain bound s rest := by
  induction h generalizing rest with
  | compound h =>
    refine ⟨rest.length, le_rfl, ?_⟩
    simp only [takeSelector, takeCompound_append h hrest, ok_bind]
  | @extend cs between cs' s relation c _ hbetween hcompound ih =>
    obtain ⟨hne, hend⟩ := hbetween.endsCompound (cs' ++ rest)
    obtain ⟨bound, hbound, hread⟩ := ih hend
    have hpos := List.length_pos_iff.mpr hne
    simp only [List.length_append] at hbound
    obtain ⟨room, rfl⟩ : ∃ room, bound = room + 1 := ⟨bound - 1, by omega⟩
    have hbegins := hcompound.begins.append rest
    have hrelation := takeRelation_append hbetween hbegins
    refine ⟨room, by omega, ?_⟩
    have htrim : Text.trimFront (between ++ (cs' ++ rest)) ≠ [] := by
      intro hnil
      obtain ⟨c, hc, hblank, _⟩ := hbegins
      have hb := trimFront_eq_nil_iff.mp hnil c
        (List.mem_append_right _ (List.mem_of_mem_head? hc))
      rw [hblank] at hb
      cases hb
    rw [List.append_assoc, List.append_assoc, hread, takeChain]
    simp only [hrelation, List.isEmpty_iff, htrim, hbegins.ne_nil, if_false,
      takeCompound_append hcompound hrest, ok_bind]

theorem takeSelector_spells {s : Selector} (hbegins : Begins cs) (h : takeSelector cs = .ok s) :
    ∃ core back, cs = core ++ back ∧ AllBlank back ∧ Spells core s := by
  obtain ⟨⟨compound, after⟩, hcompound, hchain⟩ := bind_eq_ok.mp h
  obtain ⟨used, hused, rfl, hend⟩ := takeCompound_spells hbegins hcompound
  obtain ⟨core, back, rfl, hback, hcore⟩ := takeChain_spells le_rfl hchain hend (.compound hused)
  exact ⟨used ++ core, back, by simp, hback, hcore⟩

def SpellsGroup (group : List Char) (s : Selector) : Prop :=
  ∃ front core back, group = front ++ (core ++ back) ∧ AllBlank front ∧ AllBlank back ∧
    Spells core s

theorem trim_append {front core back : List Char} (hfront : AllBlank front)
    (hback : AllBlank back) (hbegins : Begins core) (hclosed : Closed core) :
    Text.trim (front ++ (core ++ back)) = core := by
  obtain ⟨first, hfirst, hb, _⟩ := hbegins
  obtain ⟨last, hlast, hb'⟩ := hclosed
  obtain ⟨inner, rfl⟩ := List.head?_eq_some_iff.mp hfirst
  obtain ⟨init, hinit⟩ := List.getLast?_eq_some_iff.mp hlast
  have hrev : AllBlank back.reverse := fun c hc => hback c (List.mem_reverse.mp hc)
  rw [Text.trim, hfront.trimFront, List.cons_append, Text.trimFront_cons hb, ← List.cons_append,
    hinit, Text.trimBack, List.reverse_append, List.reverse_append, ← Text.trimFront,
    hrev.trimFront, List.reverse_singleton, List.singleton_append, Text.trimFront_cons hb',
    List.reverse_cons, List.reverse_reverse]

theorem trimBack_spells (cs : List Char) : ∃ w, AllBlank w ∧ cs = Text.trimBack cs ++ w := by
  obtain ⟨w, hw, hcs⟩ := trimFront_spells cs.reverse
  refine ⟨w.reverse, fun c hc => hw c (List.mem_reverse.mp hc), ?_⟩
  calc cs = cs.reverse.reverse := (List.reverse_reverse cs).symm
    _ = (w ++ Text.trimFront cs.reverse).reverse := congrArg List.reverse hcs
    _ = Text.trimBack cs ++ w.reverse := List.reverse_append

theorem trim_spells (cs : List Char) :
    ∃ front back, AllBlank front ∧ AllBlank back ∧ cs = front ++ (Text.trim cs ++ back) := by
  obtain ⟨front, hfront, hcs⟩ := trimFront_spells cs
  obtain ⟨back, hback, htrim⟩ := trimBack_spells (Text.trimFront cs)
  exact ⟨front, back, hfront, hback, by rw [Text.trim, ← htrim, ← hcs]⟩

theorem isBlank_of_trim_eq_cons {c : Char} (h : Text.trim cs = c :: rest) :
    Text.isBlank c = false := by
  cases hfront : Text.trimFront cs with
  | nil =>
    rw [Text.trim, hfront] at h
    cases h
  | cons x more =>
    have hx : Text.isBlank x = false := by
      have hfirst := List.head?_dropWhile_not Text.isBlank cs
      rw [← Text.trimFront, hfront] at hfirst
      exact hfirst
    obtain ⟨cs', hcs'⟩ := Text.trimBack_cons hx more
    rw [Text.trim, hfront, hcs'] at h
    cases h
    exact hx

/-- A text without commas is accepted exactly when it spells a selector between blanks. -/
theorem ofGroup_eq_ok_iff {group : List Char} {s : Selector} :
    ofGroup group = .ok s ↔ SpellsGroup group s := by
  constructor
  · intro h
    obtain ⟨front, back, hfront, hback, hgroup⟩ := trim_spells group
    unfold ofGroup at h
    split at h
    · cases h
    · cases h
    next hne hangle =>
      obtain ⟨c, more, htrim⟩ := List.exists_cons_of_ne_nil hne
      have hbegins : Begins (Text.trim group) := by
        rw [htrim]
        refine begins_cons (isBlank_of_trim_eq_cons htrim) ?_
        rintro rfl
        exact hangle more htrim
      obtain ⟨core, back', hcore, hback', hspells⟩ := takeSelector_spells hbegins h
      refine ⟨front, core, back' ++ back, ?_, hfront, hback'.append hback, hspells⟩
      rw [hgroup, hcore, List.append_assoc]
  · rintro ⟨front, core, back, rfl, hfront, hback, hcore⟩
    have hend : EndsCompound [] := nofun
    obtain ⟨bound, _, hread⟩ := takeSelector_append hcore hend
    rw [List.append_nil] at hread
    have hchain : takeChain bound s [] = .ok s := by
      cases bound <;> rfl
    rw [ofGroup, trim_append hfront hback hcore.begins hcore.closed]
    split
    · exact absurd rfl hcore.begins.ne_nil
    next more =>
      obtain ⟨c, hc, _, hangle⟩ := hcore.begins
      cases hc
      exact absurd rfl hangle
    · exact hread.trans hchain

end ActiveMarkup.Selector
