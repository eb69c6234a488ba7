import ActiveMarkup.Proofs.Session.Bodies
set_option autoImplicit false

namespace ActiveMarkup

namespace Document

variable {d d' : Document} {a x : NodeId}

def SamePlace (d d' : Document) (x : NodeId) : Prop :=
  ∀ a, a ∈ d'.ancestors x ↔ a ∈ d.ancestors x

/-- A node stands under an insertion that was made since the journal was that of `d`, and that is
connected. -/
def PutBack (d d' : Document) (x : NodeId) : Prop :=
  ∃ j ∈ insertedSince d d', j ∈ d'.ancestors x ∧ d'.isConnected j = true

theorem IsTree.isConnected_of_above (ht : d.IsTree) (h : d.Above a x) :
    d.isConnected x = d.isConnected a := by
  rw [Bool.eq_iff_iff, ht.isConnected_iff, ht.isConnected_iff]
  refine ⟨fun hroot => ?_, fun hroot => hroot.trans h⟩
  rcases hroot.total h with ha | ha
  · exact ha
  · rw [ht.above_root ha]
    exact .self

/-- A node is connected after edits just if it was and stands in the same place, or was put back. -/
theorem IsTree.isConnected_edited (ht : d.IsTree) (h : d.Edited d') :
    d'.isConnected x = true ↔
      (d.isConnected x = true ∧ SamePlace d d' x) ∨ PutBack d d' x := by
  have ht' := h.isTree ht
  constructor
  · intro hconnected
    rcases Session.above_edited ht h (ht'.isConnected_iff.mp hconnected) with ⟨j, hj, hjx⟩ | hsame
    · refine .inr ⟨j, hj, ht'.mem_ancestors.mpr hjx, ?_⟩
      rw [← ht'.isConnected_of_above hjx, hconnected]
    · refine .inl ⟨ht.isConnected_iff.mpr ((hsame _).mp (ht'.isConnected_iff.mp hconnected)), ?_⟩
      intro a
      rw [ht'.mem_ancestors, ht.mem_ancestors, hsame a]
  · rintro (⟨hconnected, hsame⟩ | ⟨j, -, hjx, hconnected⟩)
    · have hroot := ht.mem_ancestors.mpr (ht.isConnected_iff.mp hconnected)
      exact ht'.isConnected_iff.mpr (ht'.mem_ancestors.mp ((hsame _).mpr hroot))
    · rw [ht'.isConnected_of_above (ht'.mem_ancestors.mp hjx), hconnected]

end Document

namespace Session

open Document (SamePlace PutBack)

variable {σ : Type}

structure Round (σ : Type) where
  batch : List NodeId
  session : Session σ

variable [Host σ] (bound : Nat)

def roundsWithin : Nat → Session σ → List (Round σ)
  | 0, _ => []
  | rounds + 1, s =>
    let (batch, document) := s.document.takeInserted
    let s := { s with document }
    if batch.isEmpty then []
    else
      ⟨batch, s⟩ ::
        (scanAll bound (batchRoots document batch) 0 s).elim [] fun r => roundsWithin rounds r.2

def rounds (s : Session σ) : List (Round σ) :=
  roundsWithin bound s.settings.rounds s

def Round.scans (r : Round σ) : List (Scan σ) :=
  scansAll bound (batchRoots r.session.document r.batch) r.session

variable {bound} {s : Session σ}

theorem scansRounds_eq (n : Nat) (s : Session σ) :
    scansRounds bound n s = (roundsWithin bound n s).flatMap (Round.scans bound) := by
  induction n generalizing s with
  | zero => rfl
  | succ n ih =>
    simp only [scansRounds, roundsWithin]
    split
    · rfl
    · rw [List.flatMap_cons, Round.scans]
      congr 1
      generalize scanAll bound (batchRoots _ _) 0 (_ : Session σ) = scanned
      cases scanned with
      | none => rfl
      | some r => exact ih r.2

theorem isTree_roundsWithin {n : Nat} (ht : s.document.IsTree) :
    ∀ r ∈ roundsWithin bound n s, r.session.document.IsTree := by
  induction n generalizing s with
  | zero => nofun
  | succ n ih =>
    intro r hr
    have ht' : s.document.takeInserted.2.IsTree := ht.of_nodes rfl
    simp only [roundsWithin] at hr
    split at hr
    · cases hr
    · rcases List.mem_cons.mp hr with rfl | hr
      · exact ht'
      · obtain ⟨scanned, hscan, hr⟩ := mem_elim_nil hr
        exact ih ((leads_scanAll hscan).document.isTree ht') r hr

omit [Host σ] in
theorem of_mem_batchRoots {d : Document} {batch : List NodeId} {x : NodeId}
    (h : x ∈ batchRoots d batch) : x ∈ batch ∧ d.isConnected x = true := by
  obtain ⟨hmem, hfilter⟩ := List.mem_filter.mp h
  rw [Bool.and_eq_true] at hfilter
  exact ⟨List.mem_eraseDups.mp hmem, hfilter.1⟩

/-- The nodes that a flush scans were connected when their round started. At its turn such a node
is connected just if it stands where it stood then, or was put back since; and a directive in it is
just if the scanned node was and it stands where it stood when it was collected, or was put back
since. -/
theorem flush_connected (ht : s.document.IsTree) (bound : Nat) :
    scansFlush bound s = (s.rounds bound).flatMap (Round.scans bound) ∧
    ∀ r ∈ s.rounds bound, ∀ q ∈ r.scans bound,
      q.node ∈ r.batch ∧ r.session.document.isConnected q.node = true ∧
      Leads r.session q.session ∧
      (q.session.document.isConnected q.node = true ↔
        SamePlace r.session.document q.session.document q.node ∨
          PutBack r.session.document q.session.document q.node) ∧
      ∀ y ∈ q.executions bound, y.node ∈ q.session.document.subtree q.node ∧
        Leads q.session y.session ∧
        (y.session.document.isConnected y.node = true ↔
          (q.session.document.isConnected q.node = true ∧
            SamePlace q.session.document y.session.document y.node) ∨
          PutBack q.session.document y.session.document y.node) := by
  refine ⟨scansRounds_eq _ s, fun r hr q hq => ?_⟩
  have hround := isTree_roundsWithin ht r hr
  obtain ⟨hroot, hleads⟩ := mem_scansAll hq
  obtain ⟨hbatch, hconnected⟩ := of_mem_batchRoots hroot
  have hscan := hleads.document.isTree hround
  refine ⟨hbatch, hconnected, hleads, ?_, fun y hy => ?_⟩
  · have hturn := hround.isConnected_edited (x := q.node) hleads.document
    rwa [and_iff_right hconnected] at hturn
  · obtain ⟨hmem, -, hlead⟩ := Scan.mem_executions bound hy
    have hunder := (outermost_of_mem_frontierWithin hscan hmem).1
    have hturn := hscan.isConnected_edited (x := y.node) hlead.document
    rw [hscan.isConnected_of_above hunder] at hturn
    exact ⟨hscan.mem_subtree.mpr hunder, hlead, hturn⟩

def takenOut : Document :=
  let ops : List Document.Operation :=
    [.appendMarkup .root "<create tag=b><append source=x></append></create>",
      .appendMarkup .root "<p id=x><log>hi</log></p>"]
  ops.foldl Document.Operation.after .empty

/-- The paragraph is not at its turn where it was when the round started. -/
theorem flush_connected_moved :
    let s := ofDocument takenOut (Recorder.ofAnswers [] []) .standard
    ∃ r ∈ s.rounds 3, ∃ q ∈ r.scans 3, r.session.document.isConnected ⟨5⟩ = true ∧
      q.node = ⟨5⟩ ∧ ¬ SamePlace r.session.document q.session.document ⟨5⟩ := by
  intro s
  have heval : (s.rounds 3).any (fun r => (r.scans 3).any fun q =>
      q.node = ⟨5⟩ && !q.session.document.isConnected q.node) = true := by decide +kernel
  obtain ⟨r, hr, heval⟩ := List.any_eq_true.mp heval
  obtain ⟨q, hq, heval⟩ := List.any_eq_true.mp heval
  rw [Bool.and_eq_true, decide_eq_true_eq, Bool.not_eq_true'] at heval
  obtain ⟨hnode, hout⟩ := heval
  have ht : s.document.IsTree := (Document.Reachable.operations .empty _).isTree
  obtain ⟨-, hbefore, -, hturn, -⟩ := (flush_connected ht 3).2 r hr q hq
  rw [hnode] at hbefore hout hturn
  refine ⟨r, hr, q, hq, hbefore, hnode, fun hsame => ?_⟩
  rw [hturn.mpr (.inl hsame)] at hout
  cases hout

/-- It is scanned all the same when it is not connected any more, and the message is shown. -/
theorem flush_connected_lost :
    let s := ofDocument takenOut (Recorder.ofAnswers [] []) .standard
    (∃ q ∈ scansFlush 3 s, q.node = ⟨5⟩ ∧ q.session.document.isConnected q.node = false ∧
      ∃ y ∈ q.executions 3, y.node = ⟨6⟩ ∧ kindOf? y.session.document y.node = some .log) ∧
    (s.flush 3).map (fun r => (r.1, r.2.host.logs)) = some (2, ["hi"]) := by
  intro s
  have heval : (scansFlush 3 s).any (fun q =>
      q.node = ⟨5⟩ && !q.session.document.isConnected q.node && (q.executions 3).any fun y =>
        y.node = ⟨6⟩ && kindOf? y.session.document y.node = some .log) = true := by decide +kernel
  refine ⟨?_, by decide +kernel⟩
  simpa only [List.any_eq_true, Bool.and_eq_true, decide_eq_true_eq, Bool.not_eq_true',
    and_assoc] using heval

end Session

end ActiveMarkup
