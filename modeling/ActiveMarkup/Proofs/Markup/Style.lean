import ActiveMarkup.Document.Element
import ActiveMarkup.Proofs.Text.Lowercase
set_option autoImplicit false

namespace ActiveMarkup

theorem Table.insert_of_not_mem {α : Type} {t : Table α} {key : String} (h : key ∉ t.keys)
    (value : α) : t.insert key value = t ++ [(key, value)] := by
  induction t with
  | nil => rfl
  | cons entry rest ih =>
    obtain ⟨k, v⟩ := entry
    simp only [Table.keys, List.map_cons, List.mem_cons, not_or] at h
    rw [Table.insert, if_neg (Ne.symm h.1), ih h.2, List.cons_append]

theorem Table.mem_of_mem_insert {α : Type} {t : Table α} {key : String} {value : α}
    {entry : String × α} (h : entry ∈ t.insert key value) :
    entry = (key, value) ∨ entry ∈ t := by
  induction t with
  | nil => exact .inl (List.mem_singleton.mp h)
  | cons first rest ih =>
    obtain ⟨k, v⟩ := first
    unfold Table.insert at h
    split at h
    next hk =>
      rcases List.mem_cons.mp h with rfl | h
      · exact .inl (by rw [hk])
      · exact .inr (List.mem_cons_of_mem _ h)
    next =>
      rcases List.mem_cons.mp h with rfl | h
      · exact .inr List.mem_cons_self
      · exact (ih h).imp_right (List.mem_cons_of_mem _)

namespace Style

structure Declares (name value : List Char) : Prop where
  name_nonempty : name ≠ []
  name_trimmed : Text.trim name = name
  name_lower : name.map Char.toLower = name
  name_marks : ':' ∉ name ∧ ';' ∉ name
  value_nonempty : value ≠ []
  value_trimmed : Text.trim value = value
  value_marks : ';' ∉ value

structure Sound (style : Table String) : Prop where
  distinct : Table.Distinct style
  declares : ∀ entry ∈ style, Declares entry.1.toList entry.2.toList

theorem sound_nil : Sound [] :=
  ⟨List.nodup_nil, nofun⟩

theorem Sound.addDeclaration {style : Table String} (h : Sound style) {declaration : List Char}
    (hmark : ';' ∉ declaration) : Sound (addDeclaration style declaration) := by
  unfold Style.addDeclaration
  cases hcut : Text.cutAt ':' declaration with
  | none => exact h
  | some parts =>
    obtain ⟨name, value⟩ := parts
    have hall := Text.cutAt_append hcut
    have hname : ∀ c ∈ Text.trim name, c ∈ declaration := fun c hc => by
      rw [← hall]
      exact List.mem_append_left _ (Text.mem_of_mem_trim hc)
    have hvalue : ∀ c ∈ Text.trim value, c ∈ declaration := fun c hc => by
      rw [← hall]
      exact List.mem_append_right _ (List.mem_cons_of_mem _ (Text.mem_of_mem_trim hc))
    have hcolon : ':' ∉ Text.trim name := fun hc =>
      Text.not_mem_of_cutAt hcut (Text.mem_of_mem_trim hc)
    simp only
    split
    · exact h
    next hne =>
      simp only [Bool.or_eq_true, List.isEmpty_iff, not_or] at hne
      refine ⟨h.distinct.insert _ _, fun entry hentry => ?_⟩
      rcases Table.mem_of_mem_insert hentry with rfl | hold
      · simp only [Text.toList_toLower, String.toList_ofList]
        exact {
          name_nonempty := by simpa using hne.1
          name_trimmed := by rw [Text.trim_map_toLower, Text.trim_trim]
          name_lower := by
            rw [List.map_map]
            exact List.map_congr_left fun c _ => Text.toLower_toLower c
          name_marks := ⟨Text.not_mem_map_toLower (by decide) hcolon,
            Text.not_mem_map_toLower (by decide) fun hc => hmark (hname _ hc)⟩
          value_nonempty := hne.2
          value_trimmed := Text.trim_trim value
          value_marks := fun hc => hmark (hvalue _ hc) }
      · exact h.declares entry hold

theorem parse_sound (src : String) : Sound (parse src) := by
  have hfold : ∀ (parts : List (List Char)) (style : Table String), Sound style →
      (∀ part ∈ parts, ';' ∉ part) → Sound (parts.foldl Style.addDeclaration style) := by
    intro parts
    induction parts with
    | nil => exact fun _ h _ => h
    | cons part parts ih =>
      intro style h hparts
      exact ih _ (h.addDeclaration (hparts part List.mem_cons_self))
        fun p hp => hparts p (List.mem_cons_of_mem _ hp)
  exact hfold _ [] sound_nil fun part hp => Text.not_mem_of_mem_partsAt hp

def declarationText (entry : String × String) : List Char :=
  entry.1.toList ++ ':' :: ' ' :: entry.2.toList

theorem addDeclaration_text {style : Table String} {entry : String × String}
    (h : Declares entry.1.toList entry.2.toList) (hnew : entry.1 ∉ Table.keys style)
    {lead : List Char} (hlead : lead = [] ∨ lead = [' ']) :
    addDeclaration style (lead ++ declarationText entry) = style ++ [entry] := by
  have hcolon : ':' ∉ lead ++ entry.1.toList := by
    rcases hlead with rfl | rfl <;> simp [h.name_marks.1]
  have hname : Text.trim (lead ++ entry.1.toList) = entry.1.toList := by
    rcases hlead with rfl | rfl
    · exact h.name_trimmed
    · exact (Text.trim_blank_cons rfl _).trans h.name_trimmed
  have hvalue : Text.trim (' ' :: entry.2.toList) = entry.2.toList :=
    (Text.trim_blank_cons rfl _).trans h.value_trimmed
  have hlower : entry.1.toLower = entry.1 := by
    rw [← String.toList_inj, Text.toList_toLower, h.name_lower]
  rw [addDeclaration, declarationText, ← List.append_assoc, Text.cutAt_append_mark hcolon]
  simp only [hname, hvalue, String.ofList_toList, hlower, Table.insert_of_not_mem hnew]
  simp [h.name_nonempty, h.value_nonempty]

theorem toList_render (style : Table String) :
    (render style).toList =
      [' '].intercalate (style.map fun entry => declarationText entry ++ [';']) := by
  rw [render, String.toList_intercalate, List.map_map]
  congr 1
  refine List.map_congr_left fun entry _ => ?_
  simp [declarationText]

theorem foldl_addDeclaration_render {style : Table String} (before : Table String)
    (hdistinct : (Table.keys before ++ Table.keys style).Nodup)
    (hdeclares : ∀ entry ∈ style, Declares entry.1.toList entry.2.toList)
    {lead : List Char} (hlead : lead = [] ∨ lead = [' '] ∧ style ≠ []) :
    (Text.partsAt ';' (lead ++ (render style).toList)).foldl addDeclaration before =
      before ++ style := by
  induction style generalizing before lead with
  | nil =>
    have hl : lead = [] := by simpa using hlead
    subst hl
    rw [toList_render, List.append_nil]
    rfl
  | cons entry rest ih =>
    have hentry := hdeclares entry List.mem_cons_self
    have hsemi : ';' ∉ lead ++ declarationText entry := by
      have hl : ';' ∉ lead := by rcases hlead with rfl | ⟨rfl, -⟩ <;> simp
      simp [declarationText, hl, hentry.name_marks.2, hentry.value_marks]
    have hnew : entry.1 ∉ Table.keys before := fun hm =>
      (List.nodup_append.mp hdistinct).2.2 _ hm entry.1 (by simp [Table.keys]) rfl
    have hadd := addDeclaration_text hentry hnew (hlead.imp_right And.left)
    have hkeys : (Table.keys (before ++ [entry]) ++ Table.keys rest).Nodup := by
      simpa [Table.keys] using hdistinct
    have hrest : ∀ e ∈ rest, Declares e.1.toList e.2.toList := fun e he =>
      hdeclares e (List.mem_cons_of_mem _ he)
    obtain ⟨lead', hlead', htext⟩ : ∃ lead', (lead' = [] ∨ lead' = [' '] ∧ rest ≠ []) ∧
        (render (entry :: rest)).toList =
          declarationText entry ++ ';' :: (lead' ++ (render rest).toList) := by
      cases rest with
      | nil => exact ⟨[], .inl rfl, by simp [toList_render]⟩
      | cons next rest =>
        refine ⟨[' '], .inr ⟨rfl, by simp⟩, ?_⟩
        simp [toList_render, List.intercalate]
    rw [htext, ← List.append_assoc, Text.partsAt_append_mark hsemi, List.foldl_cons, hadd,
      ih _ hkeys hrest hlead', List.append_assoc, List.singleton_append]

theorem parse_render {style : Table String} (h : Sound style) : parse (render style) = style :=
  foldl_addDeclaration_render [] h.distinct h.declares (.inl rfl)

def hyphenated (c : Char) : List Char :=
  if c.isUpper then ['-', c.toLower] else [c]

theorem toList_propertyName (name : String) :
    (propertyName name).toList = name.toList.flatMap hyphenated :=
  String.toList_ofList

theorem toLower_of_mem_hyphenated {b c : Char} (h : b ∈ hyphenated c) : b.toLower = b := by
  unfold hyphenated at h
  split at h
  · rcases List.mem_pair.mp h with rfl | rfl
    · rfl
    · exact Text.toLower_toLower c
  next hc =>
    cases List.mem_singleton.mp h
    exact Text.toLower_of_not_isUpper (by simpa using hc)

theorem mem_hyphenated_iff {mark c : Char} (hdash : mark ≠ '-')
    (hmark : ∀ n : Fin 26, ((Char.ofNat (65 + n.val)).toLower == mark) =
      (Char.ofNat (65 + n.val) == mark)) : mark ∈ hyphenated c ↔ mark = c := by
  have hlower : c.toLower = mark ↔ c = mark := by
    rw [← beq_iff_eq, Text.toLower_congr (f := (· == mark)) hmark, beq_iff_eq]
  unfold hyphenated
  split
  · rw [List.mem_pair, or_iff_right hdash, eq_comm, hlower, eq_comm]
  · exact List.mem_singleton

theorem hyphenated_ends (c : Char) :
    (∃ b, (hyphenated c).head? = some b ∧ Text.isBlank b = Text.isBlank c) ∧
      ∃ b, (hyphenated c).getLast? = some b ∧ Text.isBlank b = Text.isBlank c := by
  unfold hyphenated
  split
  next hc =>
    have hletter : c.isAlpha = true := by rw [Char.isAlpha, hc, Bool.true_or]
    have hblank := Text.of_isAlpha (p := fun c => !Text.isBlank c) (by decide) hletter
    exact ⟨⟨'-', rfl, (by simpa using hblank : Text.isBlank c = false).symm⟩,
      c.toLower, rfl, Text.isBlank_toLower c⟩
  next => exact ⟨⟨c, rfl, rfl⟩, c, rfl, rfl⟩

/-- A property and a value that a style text can hold as they are: neither is empty or has blanks
around it, and they do not hold the marks that end them. -/
structure Plain (property value : String) : Prop where
  property_nonempty : property ≠ ""
  property_trimmed : Text.trim property.toList = property.toList
  property_marks : ':' ∉ property.toList ∧ ';' ∉ property.toList
  value_nonempty : value ≠ ""
  value_trimmed : Text.trim value.toList = value.toList
  value_marks : ';' ∉ value.toList

theorem declares_propertyName_iff {property value : String} :
    Declares (propertyName property).toList value.toList ↔ Plain property value := by
  have hmark : ∀ mark : Char, mark ≠ '-' →
      (∀ n : Fin 26, ((Char.ofNat (65 + n.val)).toLower == mark) =
        (Char.ofNat (65 + n.val) == mark)) →
      (mark ∈ (propertyName property).toList ↔ mark ∈ property.toList) := fun mark hdash hmark => by
    simp only [toList_propertyName, List.mem_flatMap, mem_hyphenated_iff hdash hmark,
      exists_eq_right']
  have htrim : Text.trim (propertyName property).toList = (propertyName property).toList ↔
      Text.trim property.toList = property.toList := by
    rw [toList_propertyName, Text.trim_flatMap_eq_self_iff (fun c => (hyphenated_ends c).1)
      fun c => (hyphenated_ends c).2]
  have hempty : (propertyName property).toList = [] ↔ property = "" := by
    rw [toList_propertyName, List.flatMap_eq_nil_iff, ← String.toList_eq_nil_iff,
      List.eq_nil_iff_forall_not_mem]
    refine forall₂_congr fun c _ => iff_false_intro fun hnil => ?_
    obtain ⟨b, hb, -⟩ := (hyphenated_ends c).1
    rw [hnil] at hb
    cases hb
  have hcolon := hmark ':' (by decide) (by decide)
  have hsemicolon := hmark ';' (by decide) (by decide)
  constructor
  · intro h
    exact {
      property_nonempty := mt hempty.mpr h.name_nonempty
      property_trimmed := htrim.mp h.name_trimmed
      property_marks := ⟨mt hcolon.mpr h.name_marks.1, mt hsemicolon.mpr h.name_marks.2⟩
      value_nonempty := mt String.toList_eq_nil_iff.mpr h.value_nonempty
      value_trimmed := h.value_trimmed
      value_marks := h.value_marks }
  · intro h
    exact {
      name_nonempty := mt hempty.mp h.property_nonempty
      name_trimmed := htrim.mpr h.property_trimmed
      name_lower := by
        have hlower : ∀ c ∈ (propertyName property).toList, c.toLower = id c := fun c hc => by
          rw [toList_propertyName] at hc
          obtain ⟨b, -, hb⟩ := List.mem_flatMap.mp hc
          exact toLower_of_mem_hyphenated hb
        rw [List.map_congr_left hlower, List.map_id]
      name_marks := ⟨mt hcolon.mp h.property_marks.1, mt hsemicolon.mp h.property_marks.2⟩
      value_nonempty := mt String.toList_eq_nil_iff.mp h.value_nonempty
      value_trimmed := h.value_trimmed
      value_marks := h.value_marks }

end Style

end ActiveMarkup
