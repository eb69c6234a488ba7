import ActiveMarkup.Host.Recorder
import ActiveMarkup.Host.Tripwire
import ActiveMarkup.Proofs.Session.Insertions
import ActiveMarkup.Proofs.Session.Rounds
set_option autoImplicit false

namespace ActiveMarkup.Session

variable {σ : Type}

def resumed (s : Session σ) : Session σ :=
  { s with interrupted := false }

def taken (s : Session σ) : Session σ :=
  { s with document := s.document.takeInserted.2 }

variable [Host σ] {bound : Nat} {s s' : Session σ}

theorem flushRounds_succ_cases {n count : Nat} {r : Nat × Session σ}
    (h : flushRounds bound (n + 1) count s = some r) :
    (r = (count, s.taken) ∧ roundsWithin bound (n + 1) s = []) ∨
      ∃ scanned,
        scanAll bound (batchRoots s.taken.document s.document.takeInserted.1) count s.taken =
          some scanned ∧
        flushRounds bound n scanned.1 scanned.2 = some r ∧
        roundsWithin bound (n + 1) s =
          ⟨s.document.takeInserted.1, s.taken⟩ :: roundsWithin bound n scanned.2 := by
  simp only [flushRounds] at h
  simp only [roundsWithin]
  split at h
  next hempty =>
    cases h
    rw [if_pos hempty]
    exact .inl ⟨rfl, rfl⟩
  next hbatch =>
    obtain ⟨scanned, hscan, hr⟩ := Option.bind_eq_some_iff.mp h
    refine .inr ⟨scanned, hscan, hr, ?_⟩
    obtain ⟨uncounted, huncounted, rfl⟩ :=
      Option.map_eq_some_iff.mp ((scanAll_add _ count 0 _).symm.trans hscan)
    rw [if_neg hbatch, huncounted]
    rfl

theorem flushRounds_covered_taken {owed : NodeId → Prop} {n count : Nat} {r : Nat × Session σ}
    (h : Covered owed [] [] s) (hr : flushRounds bound n count s = some r) :
    Covered (fun a => owed a ∨ ∃ q ∈ roundsWithin bound n s, a ∈ q.batch) [] [] r.2 := by
  induction n generalizing owed count s with
  | zero =>
    refine (flushRounds_covered h hr).mono ?_
    rintro a (ha | ⟨q, hq, -⟩)
    · exact ha
    · cases hq
  | succ n ih =>
    rcases flushRounds_succ_cases hr with ⟨-, hrounds⟩ | ⟨scanned, hscan, hlater, hrounds⟩
    · refine (flushRounds_covered h hr).mono ?_
      rintro a (ha | ⟨q, hq, -⟩)
      · exact ha
      · rw [hrounds] at hq
        cases hq
    · refine (ih (scanAll_covered h.takeInserted hscan) hlater).mono fun a ha => ?_
      rw [hrounds] at ha
      rcases ha with ha | ⟨q, hq, ha⟩
      · exact .inl (.inl ha)
      · rcases List.mem_cons.mp hq with rfl | hq
        · exact .inl (.inr ha)
        · exact .inr ⟨q, hq, ha⟩

theorem dispatchCounted_interrupted (bound : Nat) (hs : s.interrupted = true)
    (list : List NodeId) (count : Nat) :
    ∃ notices, dispatchCounted bound list count s = some (count, { s with notices }) := by
  cases list with
  | nil => exact ⟨s.notices, rfl⟩
  | cons node rest =>
    rw [dispatchCounted, if_pos hs]
    exact ⟨_, rfl⟩

theorem scanAll_interrupted (bound : Nat) (hs : s.interrupted = true) (nodes : List NodeId)
    (count : Nat) :
    ∃ notices, scanAll bound nodes count s = some (count, { s with notices }) := by
  induction nodes generalizing s with
  | nil => exact ⟨s.notices, rfl⟩
  | cons id rest ih =>
    obtain ⟨notices, hscan⟩ := dispatchCounted_interrupted bound hs (s.frontier id) 0
    obtain ⟨notices', hrest⟩ := ih (s := { s with notices }) hs
    exact ⟨notices', by rw [scanAll, scan, hscan]; exact hrest⟩

theorem flushRounds_empties {n count : Nat} {r : Nat × Session σ}
    (hr : flushRounds bound n count s = some r)
    (hrounds : (roundsWithin bound n s).length < n ∨
      ∃ q ∈ roundsWithin bound n s, q.session.interrupted = true) :
    r.2.document.hasInsertions = false := by
  induction n generalizing count s with
  | zero =>
    rcases hrounds with hlength | ⟨q, hq, -⟩
    · cases hlength
    · cases hq
  | succ n ih =>
    rcases flushRounds_succ_cases hr with ⟨rfl, -⟩ | ⟨scanned, hscan, hlater, heq⟩
    · rfl
    · rw [heq] at hrounds
      rcases hrounds with hlength | ⟨q, hq, hinterrupted⟩
      · exact ih hlater (.inl (by rw [List.length_cons] at hlength; omega))
      · rcases List.mem_cons.mp hq with rfl | hq
        · -- nothing is executed any more, so the journal stays as empty as it was taken
          obtain ⟨notices, hnothing⟩ := scanAll_interrupted bound hinterrupted _ count
          rw [hnothing] at hscan
          cases hscan
          rw [flushRounds_of_empty n count rfl] at hlater
          cases hlater
          rfl
        · exact ih hlater (.inr ⟨q, hq, hinterrupted⟩)

theorem flush_interrupted (bound : Nat) (hs : s.interrupted = true)
    (hrounds : 0 < s.settings.rounds) :
    ∃ notices, flush bound s = some (0, { s.taken with notices }) := by
  obtain ⟨n, hn⟩ := Nat.exists_eq_succ_of_ne_zero (Nat.ne_of_gt hrounds)
  rw [flush, hn, flushRounds]
  dsimp only
  split
  next => exact ⟨s.notices, rfl⟩
  next =>
    obtain ⟨notices, hscan⟩ := scanAll_interrupted bound (s := s.taken) hs
      (batchRoots s.taken.document s.document.takeInserted.1) 0
    refine ⟨notices, ?_⟩
    change (scanAll bound (batchRoots s.taken.document s.document.takeInserted.1) 0 s.taken).bind
      _ = _
    rw [hscan]
    exact flushRounds_of_empty n 0 rfl

/-- A node that was in the journal when a flush started, or was entered in it during the flush. -/
def Journaled (bound : Nat) (s s' : Session σ) (j : NodeId) : Prop :=
  (∃ r ∈ s.rounds bound, j ∈ r.batch) ∨ j ∈ s'.document.inserted

/-- After a flush that was not interrupted, the journal holds what was journaled and not executed.
A flush that came to its end early, or of which a round started interrupted, leaves the journal
empty, so a later one executes nothing. A run finds everything that was not executed. -/
theorem flush_leaves (ht : s.document.IsTree) (bound : Nat) :
    (∀ count s', flush bound s = some (count, s') →
      (s'.interrupted = false → ∀ j, Journaled bound s s' j →
        ∀ x ∈ s'.document.subtree j, Exposed s'.document x → x ∉ s'.executed →
          ∃ j' ∈ s'.document.inserted, x ∈ s'.document.subtree j') ∧
      ((s.rounds bound).length < s.settings.rounds ∨
          (∃ r ∈ s.rounds bound, r.session.interrupted = true) →
        s'.document.hasInsertions = false ∧
          ∀ bound', flush bound' s'.resumed = some (0, s'.resumed)) ∧
      ∀ x, Exposed s'.document x → x ∉ s'.executed → x ∈ s'.resumed.frontier .root) ∧
    (s.interrupted = true → 0 < s.settings.rounds →
      ∃ notices, flush bound s = some (0, { s.taken with notices })) := by
  refine ⟨fun count s' h => ?_, flush_interrupted bound⟩
  have hnothing : Covered (fun _ => False) [] [] s := ⟨ht, fun _ _ _ ⟨_, hfalse, _⟩ => hfalse.elim⟩
  have hc := flushRounds_covered_taken hnothing h
  refine ⟨fun hi j hj x hjx hx hex => ?_, fun hrounds => ?_, fun x hx hex => ?_⟩
  · have habove := hc.tree.mem_subtree.mp hjx
    rcases hj with hj | hj
    · rcases hc.covers hi x hx ⟨j, .inr hj, habove⟩ with h | h | ⟨j', hj' | hj', hj'x⟩
      · exact (hex h).elim
      · cases h
      · cases hj'
      · exact ⟨j', hj', hc.tree.mem_subtree.mpr hj'x⟩
    · exact ⟨j, hj, hjx⟩
  · have hempty := flushRounds_empties h hrounds
    exact ⟨hempty, fun bound' => flushRounds_of_empty _ 0 hempty⟩
  · have hroot := hc.tree.isConnected_iff.mp hx.connected
    exact mem_frontier (s := s'.resumed) hc.tree hx hex hroot

def appended (texts : List String) : Document :=
  (texts.map (Document.Operation.appendMarkup .root)).foldl Document.Operation.after .empty

/-- The first message interrupts, and the second one, which was taken with it, is left to a run. -/
theorem flush_leaves_stopped :
    let s := ofDocument (appended ["<log>stop</log>", "<log>on</log>"])
      (⟨.ofAnswers [] [], some "stop"⟩ : Tripwire Recorder) .standard
    ∃ s', flush 3 s = some (1, s') ∧ s'.interrupted = true ∧ s'.host.host.logs = ["stop"] ∧
      s'.document.hasInsertions = false ∧
      (∀ bound, flush bound s'.resumed = some (0, s'.resumed)) ∧
      ⟨5⟩ ∈ s'.resumed.frontier .root := by
  intro s
  have heval : (s.flush 3).map (fun r => (r.1, r.2.interrupted, r.2.host.host.logs, r.2.executed,
      (kindOf? r.2.document ⟨5⟩).isSome && r.2.document.isConnected ⟨5⟩ &&
        (r.2.document.ancestors ⟨5⟩).tail.all fun a => kindOf? r.2.document a = none)) =
      some (1, true, ["stop"], [⟨2⟩], true) := by decide +kernel
  have hearly : (s.rounds 3).length < s.settings.rounds := by decide +kernel
  obtain ⟨⟨count, s'⟩, hflush, heq⟩ := Option.map_eq_some_iff.mp heval
  simp only [Prod.mk.injEq, Bool.and_eq_true, List.all_eq_true, decide_eq_true_eq] at heq
  obtain ⟨rfl, hflag, hlogs, hexecuted, ⟨hkind, hconnected⟩, houtermost⟩ := heq
  have ht : s.document.IsTree := (Document.Reachable.operations .empty _).isTree
  obtain ⟨-, hempty, hfound⟩ := (flush_leaves ht 3).1 1 s' hflush
  obtain ⟨hnone, hagain⟩ := hempty (.inl hearly)
  have hexposed : Exposed s'.document ⟨5⟩ := ⟨hkind, hconnected, houtermost⟩
  refine ⟨s', hflush, hflag, hlogs, hnone, hagain, hfound ⟨5⟩ hexposed ?_⟩
  rw [hexecuted]
  decide

/-- The message was journaled and not executed, and no journal holds it any more. -/
theorem flush_leaves_lost :
    let s : Session Recorder :=
      { ofDocument (appended ["<log>hi</log>"]) (.ofAnswers [] []) .standard with
        interrupted := true }
    ∃ s', flush 3 s = some (0, s') ∧ Journaled 3 s s' ⟨2⟩ ∧ ⟨2⟩ ∈ s'.document.subtree ⟨2⟩ ∧
      Exposed s'.document ⟨2⟩ ∧ ⟨2⟩ ∉ s'.executed ∧ s'.document.inserted = #[] ∧
      flush 3 s'.resumed = some (0, s'.resumed) := by
  intro s
  obtain ⟨notices, hflush⟩ := flush_interrupted (s := s) 3 rfl (by decide)
  have htaken : (s.rounds 3).any (fun r => r.batch.contains ⟨2⟩) = true := by decide +kernel
  obtain ⟨r, hr, hbatch⟩ := List.any_eq_true.mp htaken
  have hexposed : Exposed s.taken.document ⟨2⟩ :=
    ⟨by decide +kernel, by decide +kernel, by decide +kernel⟩
  refine ⟨_, hflush, .inl ⟨r, hr, List.contains_iff_mem.mp hbatch⟩, ?_, hexposed, ?_, rfl, ?_⟩
  · change ⟨2⟩ ∈ s.taken.document.subtree ⟨2⟩
    decide +kernel
  · exact List.not_mem_nil
  · exact flushRounds_of_empty _ 0 rfl

end ActiveMarkup.Session
