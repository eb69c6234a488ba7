import ActiveMarkup.Proofs.Selector.Reading
import Mathlib
set_option autoImplicit false

namespace ActiveMarkup.Selector

open ActiveMarkup.Parser (bind_eq_ok)

variable {cs cs' : List Char} {depth depth' depth'' : Nat}

/-- Starting outside quotes and between as many brackets as `depth`, the split reads the text into
the group at hand and is between as many brackets as `depth'` afterwards, outside quotes. -/
def Passes (depth : Nat) (cs : List Char) (depth' : Nat) : Prop :=
  ∀ group rest, groupsFrom none depth group (cs ++ rest) =
    groupsFrom none depth' (cs.reverse ++ group) rest

def Plain (c : Char) : Prop :=
  c ≠ '"' ∧ c ≠ '\'' ∧ c ≠ '[' ∧ c ≠ ']' ∧ c ≠ ','

instance (c : Char) : Decidable (Plain c) :=
  inferInstanceAs (Decidable (_ ∧ _))

theorem passes_nil : Passes depth [] depth :=
  fun _ _ => rfl

theorem Passes.append (h : Passes depth cs depth') (h' : Passes depth' cs' depth'') :
    Passes depth (cs ++ cs') depth'' := by
  intro group rest
  rw [List.append_assoc, h, h', List.reverse_append, List.append_assoc]

theorem passes_char {c : Char} (h : Plain c) : Passes depth [c] depth := by
  intro group rest
  obtain ⟨hdouble, hsingle, hopen, hclose, hcomma⟩ := h
  simp [groupsFrom, hdouble, hsingle, hopen, hclose, hcomma]

theorem passes_plain (h : ∀ c ∈ cs, Plain c) : Passes depth cs depth := by
  induction cs with
  | nil => exact passes_nil
  | cons c cs ih =>
    exact (passes_char (h c List.mem_cons_self)).append
      (ih fun x hx => h x (List.mem_cons_of_mem _ hx))

theorem passes_open : Passes depth ['['] (depth + 1) :=
  fun _ _ => rfl

theorem passes_close : Passes (depth + 1) [']'] depth :=
  fun _ _ => rfl

theorem groupsFrom_quoted {q : Char} (h : q ∉ cs) (group rest : List Char) :
    groupsFrom (some q) depth group (cs ++ q :: rest) =
      groupsFrom none depth (q :: (cs.reverse ++ group)) rest := by
  induction cs generalizing group with
  | nil => simp [groupsFrom]
  | cons c cs ih =>
    have hc : (c == q) = false := by
      rw [beq_eq_false_iff_ne]
      rintro rfl
      exact h List.mem_cons_self
    rw [List.cons_append, groupsFrom, hc]
    simpa using ih (fun hm => h (List.mem_cons_of_mem _ hm)) (c :: group)

theorem passes_quoted {q : Char} (hq : q = '"' ∨ q = '\'') (h : q ∉ cs) :
    Passes depth (q :: (cs ++ [q])) depth := by
  intro group rest
  have hopen : groupsFrom none depth group (q :: (cs ++ q :: rest)) =
      groupsFrom (some q) depth (q :: group) (cs ++ q :: rest) := by
    rcases hq with rfl | rfl <;> rfl
  simpa [hopen] using groupsFrom_quoted h (q :: group) rest

theorem plain_of_inName {c : Char} (h : inName c = true) : Plain c :=
  ⟨ne_of_inName (by decide) h, ne_of_inName (by decide) h, ne_of_inName (by decide) h,
    ne_of_inName (by decide) h, ne_of_inName (by decide) h⟩

theorem plain_of_isBlank {c : Char} (h : Text.isBlank c = true) : Plain c :=
  ⟨ne_of_isBlank (by decide) h, ne_of_isBlank (by decide) h, ne_of_isBlank (by decide) h,
    ne_of_isBlank (by decide) h, ne_of_isBlank (by decide) h⟩

theorem IsName.passes (h : IsName cs) : Passes depth cs depth :=
  passes_plain fun c hc => plain_of_inName (h.chars c hc)

theorem AllBlank.passes (h : AllBlank cs) : Passes depth cs depth :=
  passes_plain fun c hc => plain_of_isBlank (h c hc)

theorem SpellsValue.passes {v : String} (h : SpellsValue cs v) : Passes depth cs depth := by
  cases h with
  | name h => exact h.passes
  | quoted hq hmem => exact passes_quoted hq hmem

theorem SpellsTest.passes {test : String → AttributeTest} (h : SpellsTest cs test) :
    Passes depth cs depth := by
  have hequals : Passes depth ['='] depth := passes_char (by decide)
  cases h with
  | equals => exact hequals
  | includes => exact (passes_char (c := '~') (by decide)).append hequals
  | begins => exact (passes_char (c := '^') (by decide)).append hequals
  | ends => exact (passes_char (c := '$') (by decide)).append hequals
  | contains => exact (passes_char (c := '*') (by decide)).append hequals

theorem SpellsAttribute.passes {condition : String × AttributeTest}
    (h : SpellsAttribute cs condition) : Passes (depth + 1) cs depth := by
  cases h with
  | present hw₁ hname hw₂ =>
    exact hw₁.passes.append (hname.passes.append (hw₂.passes.append passes_close))
  | tested hw₁ hname hw₂ hsign hw₃ hvalue hw₄ =>
    exact hw₁.passes.append (hname.passes.append (hw₂.passes.append (hsign.passes.append
      (hw₃.passes.append (hvalue.passes.append (hw₄.passes.append passes_close))))))

theorem SpellsConditions.passes {c c' : Compound} (h : SpellsConditions c cs c') :
    Passes depth cs depth := by
  induction h with
  | none => exact passes_nil
  | identified hname _ ih =>
    exact (passes_char (c := '#') (by decide)).append (hname.passes.append ih)
  | classed hname _ ih =>
    exact (passes_char (c := '.') (by decide)).append (hname.passes.append ih)
  | attributed hinner _ ih => exact passes_open.append (hinner.passes.append ih)

theorem SpellsCompound.passes {c : Compound} (h : SpellsCompound cs c) :
    Passes depth cs depth := by
  cases h with
  | star h => exact (passes_char (c := '*') (by decide)).append h.passes
  | tag _ hname h => exact hname.passes.append h.passes
  | bare _ h => exact h.passes

theorem SpellsRelation.passes {relation : Relation} (h : SpellsRelation cs relation) :
    Passes depth cs depth := by
  have hangle : Plain '>' := by decide
  cases h with
  | descendant hc hw =>
    refine passes_plain fun x hx => ?_
    rcases List.mem_cons.mp hx with rfl | hx
    · exact plain_of_isBlank hc
    · exact plain_of_isBlank (hw x hx)
  | child hw hmore =>
    refine hw.passes.append (passes_plain fun x hx => ?_)
    rcases List.mem_cons.mp hx with rfl | hx
    · exact hangle
    · rcases hmore x hx with hb | rfl
      · exact plain_of_isBlank hb
      · exact hangle

theorem Spells.passes {s : Selector} (h : Spells cs s) : Passes depth cs depth := by
  induction h with
  | compound h => exact h.passes
  | extend _ hbetween hcompound ih => exact ih.append (hbetween.passes.append hcompound.passes)

theorem SpellsGroup.passes {s : Selector} (h : SpellsGroup cs s) : Passes depth cs depth := by
  obtain ⟨front, core, back, rfl, hfront, hback, hcore⟩ := h
  exact hfront.passes.append (hcore.passes.append hback.passes)

theorem groupsFrom_ne_nil (quote : Option Char) (depth : Nat) (group cs : List Char) :
    groupsFrom quote depth group cs ≠ [] := by
  fun_induction groupsFrom quote depth group cs <;> simp_all

theorem intercalate_cons {group : List Char} {groups : List (List Char)} (hne : groups ≠ []) :
    [','].intercalate (group :: groups) = group ++ ',' :: [','].intercalate groups := by
  obtain ⟨next, groups, rfl⟩ := List.exists_cons_of_ne_nil hne
  rw [List.intercalate_cons_cons, List.append_assoc, List.singleton_append]

theorem intercalate_append {groups groups' : List (List Char)} (hne : groups ≠ [])
    (hne' : groups' ≠ []) : [','].intercalate (groups ++ groups') =
      [','].intercalate groups ++ ',' :: [','].intercalate groups' := by
  induction groups with
  | nil => exact absurd rfl hne
  | cons group groups ih =>
    cases groups with
    | nil => rw [List.singleton_append, intercalate_cons hne', List.intercalate_singleton]
    | cons next groups =>
      rw [List.cons_append, intercalate_cons (by simp), ih (by simp),
        intercalate_cons (List.cons_ne_nil next groups), List.append_assoc, List.cons_append]

theorem intercalate_groupsFrom (quote : Option Char) (depth : Nat) (group cs : List Char) :
    [','].intercalate (groupsFrom quote depth group cs) = group.reverse ++ cs := by
  fun_induction groupsFrom quote depth group cs with
  | case1 => simp
  | case2 depth group c cs q ih => simp_all
  | case3 depth group c cs hquote ih => simp_all
  | case4 depth group c cs hquote hopen ih => simp_all
  | case5 depth group c cs hquote hopen hclose ih => simp_all
  | case6 depth group c cs hquote hopen hclose hcomma ih =>
    have hc : c = ',' := by simp_all
    rw [intercalate_cons (groupsFrom_ne_nil _ _ _ _), ih, hc]
    rfl
  | case7 depth group c cs hquote hopen hclose hcomma ih => simp_all

theorem groupsFrom_intercalate {groups : List (List Char)} (hne : groups ≠ [])
    (h : ∀ group ∈ groups, Passes 0 group 0) :
    groupsFrom none 0 [] ([','].intercalate groups) = groups := by
  induction groups with
  | nil => exact absurd rfl hne
  | cons group groups ih =>
    have hgroup := h group List.mem_cons_self
    by_cases hnil : groups = []
    · subst hnil
      have hlast := hgroup [] []
      rw [List.append_nil, List.append_nil] at hlast
      rw [List.intercalate_singleton, hlast, groupsFrom, List.reverse_reverse]
    · have hrest := ih hnil fun g hg => h g (List.mem_cons_of_mem _ hg)
      rw [intercalate_cons hnil, hgroup, List.append_nil]
      change group.reverse.reverse :: groupsFrom none 0 [] _ = _
      rw [List.reverse_reverse, hrest]

theorem mapM_ofGroup_eq_ok_iff {groups : List (List Char)} {list : List Selector} :
    groups.mapM ofGroup = .ok list ↔ List.Forall₂ SpellsGroup groups list := by
  induction groups generalizing list with
  | nil =>
    rw [List.mapM_nil, List.forall₂_nil_left_iff]
    exact ⟨fun h => by cases h; rfl, fun h => by rw [h]; rfl⟩
  | cons group groups ih =>
    rw [List.mapM_cons, List.forall₂_cons_left_iff]
    constructor
    · intro h
      obtain ⟨s, hs, h⟩ := bind_eq_ok.mp h
      obtain ⟨rest, hrest, h⟩ := bind_eq_ok.mp h
      cases h
      exact ⟨s, rest, ofGroup_eq_ok_iff.mp hs, ih.mp hrest, rfl⟩
    · rintro ⟨s, rest, hs, hrest, rfl⟩
      rw [ofGroup_eq_ok_iff.mpr hs, ih.mpr hrest]
      rfl

/-- A text is accepted exactly when it is made of selectors with commas between them. -/
theorem parseAll_eq_ok_iff {src : String} {list : List Selector} :
    parseAll src = .ok list ↔
      ∃ groups, groups ≠ [] ∧ src.toList = [','].intercalate groups ∧
        List.Forall₂ SpellsGroup groups list := by
  constructor
  · intro h
    exact ⟨_, groupsFrom_ne_nil _ _ _ _, (intercalate_groupsFrom none 0 [] src.toList).symm,
      mapM_ofGroup_eq_ok_iff.mp h⟩
  · rintro ⟨groups, hne, hsrc, hgroups⟩
    have hpasses : ∀ group ∈ groups, Passes 0 group 0 :=
      ((List.forall₂_and_left _ _).mp (hgroups.imp fun _ _ hs => ⟨hs.passes, hs⟩)).1
    rw [parseAll, hsrc, groupsFrom_intercalate hne hpasses]
    exact mapM_ofGroup_eq_ok_iff.mpr hgroups

end ActiveMarkup.Selector
