import ActiveMarkup.Host.Recorder
import ActiveMarkup.Proofs.Session.Calls
import ActiveMarkup.Proofs.Session.Once
set_option autoImplicit false

namespace ActiveMarkup.Session

variable {σ : Type} {d : Document} {executed : List NodeId} {a x : NodeId}

def IsDirective (d : Document) (x : NodeId) : Prop :=
  ∃ tag, d.tag? x = some tag ∧ ∃ kind : Directive, kind.tag.toLower = tag.toLower

theorem isDirective_iff : IsDirective d x ↔ (kindOf? d x).isSome := by
  rw [IsDirective, kindOf?]
  cases d.tag? x with
  | none => simp
  | some tag => simp [Directive.isSome_ofTag?_iff]

theorem not_isDirective_iff : ¬ IsDirective d x ↔ kindOf? d x = none := by
  rw [isDirective_iff, Option.not_isSome_iff_eq_none]

/-- A directive in the subtree of a node that was not executed. No directive stands on the way down
to it from the node, executed or not. -/
structure Collectable (s : Session σ) (r x : NodeId) : Prop where
  directive : IsDirective s.document x
  fresh : x ∉ s.executed
  below : s.document.Above r x
  outermost : ∀ a, s.document.Above r a → s.document.Above a x → a ≠ x →
    ¬ IsDirective s.document a

theorem frontierWithin_add_one (ht : d.IsTree) {depth : Nat} (hx : d.Known x)
    (hd : d.nodes.size < depth + (d.ancestors x).length) :
    frontierWithin d executed (depth + 1) x = frontierWithin d executed depth x := by
  refine ht.walk_succ (f := frontierWithin d executed) (fun depth x hstep => ?_) hx hd
  cases hk : kindOf? d x with
  | some kind =>
    have hkx := Option.isSome_of_eq_some hk
    rw [frontierWithin_directive executed _ hkx, frontierWithin_directive executed _ hkx]
  | none =>
    rw [frontierWithin_below ht _ _ hk, frontierWithin_below ht _ _ hk, List.flatMap_def,
      List.flatMap_def, List.map_congr_left hstep]

section

variable {s : Session σ}

theorem frontier_directive (hk : (kindOf? s.document a).isSome) :
    s.frontier a = if s.executed.contains a then [] else [a] :=
  frontierWithin_directive s.executed _ hk

theorem frontier_below (ht : s.document.IsTree) (hk : kindOf? s.document a = none) :
    s.frontier a = (s.document.children a).flatMap s.frontier := by
  have hstep : ∀ c ∈ s.document.children a,
      frontierWithin s.document s.executed s.document.nodes.size c = s.frontier c := by
    intro c hc
    refine (frontierWithin_add_one ht (ht.known_child hc) ?_).symm
    rw [ht.ancestors_length ((ht.mem_children a c).mp hc)]
    omega
  rw [frontier, frontierWithin_below ht _ _ hk, List.flatMap_def, List.flatMap_def,
    List.map_congr_left hstep]

theorem mem_frontier_iff (ht : s.document.IsTree) {r : NodeId} :
    x ∈ s.frontier r ↔ s.Collectable r x := by
  constructor
  · intro hx
    obtain ⟨hk, hfresh⟩ := pending_of_mem_frontierWithin hx
    obtain ⟨hbelow, hout⟩ := outermost_of_mem_frontierWithin ht hx
    exact ⟨isDirective_iff.mpr hk, hfresh, hbelow, fun a hra hax hne =>
      not_isDirective_iff.mpr (hout a hra hax hne)⟩
  · rintro ⟨hdirective, hfresh, hbelow, hout⟩
    have hk := isDirective_iff.mp hdirective
    exact mem_frontierWithin ht hbelow (ht.known_above hbelow (known_of_kindOf? hk)) hk hfresh
      (fun a hra hax hne => not_isDirective_iff.mp (hout a hra hax hne)) (by omega)

theorem lists_frontier (ht : s.document.IsTree) (r : NodeId) :
    s.document.Lists (s.Collectable r) (s.frontier r) where
  mem _ := mem_frontier_iff ht
  once := frontierWithin_nodup ht _ _ r
  sorted := (ht.subtreeWithin_sorted _ r).sublist (frontierWithin_sublist _ _ _ r)

end

/-- A sweep in progress: the nodes still to be visited, the next one first, and the directives found
so far. -/
structure Sweep where
  stack : List NodeId
  found : List NodeId

namespace Sweep

def visit (s : Session σ) (id : NodeId) (w : Sweep) : Sweep :=
  match s.document.tag? id with
  | none => if id = .root then { w with stack := s.document.children id ++ w.stack } else w
  | some tag =>
    match Directive.ofTag? tag with
    | some _ => if s.executed.contains id then w else { w with found := w.found ++ [id] }
    | none => { w with stack := s.document.children id ++ w.stack }

def run (s : Session σ) : Nat → Sweep → Option (List NodeId)
  | _, ⟨[], found⟩ => some found
  | 0, ⟨_ :: _, _⟩ => none
  | steps + 1, ⟨id :: stack, found⟩ => run s steps (visit s id ⟨stack, found⟩)

def ahead (d : Document) (w : Sweep) : List NodeId :=
  w.stack.flatMap d.subtree

variable {s : Session σ} {id : NodeId} {w : Sweep}

theorem visit_directive (hk : (kindOf? s.document id).isSome) :
    visit s id w = { w with found := w.found ++ s.frontier id } := by
  rw [frontier_directive hk, visit]
  cases htag : s.document.tag? id with
  | none => simp [kindOf?, htag] at hk
  | some tag =>
    simp only [kindOf?, htag, Option.bind_some, Option.isSome_iff_exists] at hk
    obtain ⟨kind, hk⟩ := hk
    simp only [hk]
    split <;> simp

theorem visit_below (ht : s.document.IsTree) (hk : kindOf? s.document id = none) :
    visit s id w = { w with stack := s.document.children id ++ w.stack } := by
  rw [visit]
  cases htag : s.document.tag? id with
  | none =>
    simp only
    split
    · rfl
    next hroot =>
      rw [children_of_tag?_none ht htag hroot, List.nil_append]
  | some tag =>
    simp only [kindOf?, htag, Option.bind_some] at hk
    simp only [hk]

/-- A visit leaves less ahead. What was found, together with what there is to be found ahead, stays
the same. -/
theorem visit_spec (ht : s.document.IsTree) (id : NodeId) (stack found : List NodeId) :
    let w := visit s id ⟨stack, found⟩
    w.found ++ w.stack.flatMap s.frontier = found ++ (id :: stack).flatMap s.frontier ∧
      (ahead s.document w).length < (ahead s.document ⟨id :: stack, found⟩).length := by
  have hsubtree := ht.subtree_eq id
  simp only
  cases hk : kindOf? s.document id with
  | some kind =>
    -- what stands in a directive is ahead before the visit and not after it
    rw [visit_directive (Option.isSome_of_eq_some hk)]
    constructor
    · rw [List.flatMap_cons, List.append_assoc]
    · simp only [ahead, List.flatMap_cons, hsubtree, List.length_append, List.length_cons]
      omega
  | none =>
    rw [visit_below ht hk]
    constructor
    · rw [List.flatMap_cons, List.flatMap_append, ← frontier_below ht hk]
    · simp only [ahead, List.flatMap_cons, List.flatMap_append, hsubtree, List.length_append,
        List.length_cons]
      omega

theorem run_eq (ht : s.document.IsTree) {steps : Nat}
    (h : (ahead s.document w).length ≤ steps) :
    run s steps w = some (w.found ++ w.stack.flatMap s.frontier) := by
  induction steps generalizing w with
  | zero =>
    obtain ⟨_ | ⟨id, stack⟩, found⟩ := w
    · simp [run]
    · -- the node itself is left to be visited
      simp [ahead, ht.subtree_eq id] at h
  | succ steps ih =>
    obtain ⟨_ | ⟨id, stack⟩, found⟩ := w
    · simp [run]
    · obtain ⟨hfound, hless⟩ := visit_spec ht id stack found
      rw [run, ih (by omega), hfound]

theorem run_start (ht : s.document.IsTree) (r : NodeId) {steps : Nat}
    (h : s.document.nodes.size ≤ steps) : run s steps ⟨[r], []⟩ = some (s.frontier r) := by
  have hlength : (s.document.subtree r).length ≤ s.document.nodes.size := by
    by_cases hr : s.document.Known r
    · refine Document.length_le_of_known (ht.subtree_lists r).once fun x hx => ?_
      exact (ht.mem_subtree.mp hx).known hr
    · -- an unknown handle is the only one below itself
      have hroot : 0 < s.document.nodes.size := ht.known_root
      rw [ht.subtree_eq, Document.children_fresh hr]
      exact hroot
  rw [run_eq ht (by simpa [ahead] using hlength.trans h)]
  simp

end Sweep

variable [Host σ]

/-- A moment in the use of a session. A session is made over a document with a history. Jobs are
given to it, by which its owner may also edit or exchange the document, and in between the owner may
change the names, the host and the settings. While a job is done there are the moments in which a
node comes to be executed and those in which a scan starts. -/
inductive Moment : Session σ → Prop where
  | made {d : Document} (host : σ) (settings : Settings) : d.Reachable →
      Moment (ofDocument d host settings)
  | after {s s' : Session σ} (job : Job) (bound : Nat) : Moment s → job.after bound s = some s' →
      Moment s'
  | changed {s : Session σ} (names : Namespace) (host : σ) (settings : Settings) : Moment s →
      Moment { s with names, host, settings }
  | executing {s : Session σ} {job : Job} {x : Execution σ} : Moment s → job.Executes s x →
      Moment x.session
  | scanning {s : Session σ} {request : Request} {bound : Nat} {q : Scan σ} : Moment s →
      q ∈ request.scans bound s → Moment q.session

theorem contract_tree :
    Contract (fun x : Execution σ => x.session.document.IsTree) fun _ s => s.document.IsTree where
  pass hx := hx
  enter {x kind} hx _ := (leads_enter x.session x.node x.scope kind).document.isTree hx
  move _ hs hm := by
    cases hm with
    | act ha => exact ha.leads.document.isTree hs
    | depth n => exact hs
  ask _ hs _ _ := hs
  back _ _ _ hs' := hs'

omit [Host σ] in
theorem Turns.isTree {s s' : Session σ} (h : Turns s s') (ht : s.document.IsTree) :
    s'.document.IsTree := by
  induction h with
  | refl => exact ht
  | tail _ hturn ih =>
    cases hturn with
    | noted | depth => exact ih
    | taken => exact ih.of_nodes rfl

theorem Request.Executes.isTree {request : Request} {s : Session σ} {x : Execution σ}
    (ht : s.document.IsTree) (h : request.Executes s x) : x.session.document.IsTree := by
  induction h with
  | first hx =>
    cases hrequest : request.executing with
    | true =>
      obtain ⟨last, hlast, hx⟩ := (request.follows hrequest s).makes
        (I := fun s => s.document.IsTree) ht
        (fun _ _ _ _ hlast hy hd => contract_tree.dispatch (hy.turns.isTree hlast) hd) hx
      exact hx.turns.isTree hlast
    | false =>
      cases request with
      | edit | rewrite | exchange | interrupt => cases hx
      | run | scan | flush | fire | call => cases hrequest
  | nested _ hy ih => exact contract_tree.nests ih hy

theorem Job.Executes.isTree {job : Job} {s : Session σ} {x : Execution σ} (ht : s.document.IsTree)
    (h : job.Executes s x) : x.session.document.IsTree := by
  cases job with
  | request r => exact Request.Executes.isTree ht h
  | node id scope =>
    induction h with
    | refl => exact ht
    | tail _ hy ih => exact contract_tree.nests ih hy

theorem Moment.isTree {s : Session σ} (h : Moment s) : s.document.IsTree := by
  induction h with
  | made _ _ hd => exact hd.isTree
  | after job _ _ hafter ih =>
    cases job with
    | request r => exact r.isTree_after ih hafter
    | node id scope => exact (leads_dispatch hafter).document.isTree ih
  | changed _ _ _ _ ih => exact ih
  | executing _ hx ih => exact hx.isTree ih
  | scanning _ hq ih => exact Request.isTree_scans _ ih _ hq

/-- At every moment, and from every node, the walk with a stack ends after no more visits than there
are nodes, and it has then found what a scan of the node collects. These are the directives that are
to be collected, each of them once and in document order. -/
theorem Moment.frontier_swept {s : Session σ} (h : Moment s) (r : NodeId) :
    (∀ steps, s.document.nodes.size ≤ steps → Sweep.run s steps ⟨[r], []⟩ = some (s.frontier r)) ∧
      ∀ found, found = s.frontier r ↔ s.document.Lists (s.Collectable r) found := by
  have ht := h.isTree
  have hlists := lists_frontier ht r
  refine ⟨fun steps hsteps => Sweep.run_start ht r hsteps, fun found => ?_⟩
  exact ⟨fun hfound => hfound ▸ hlists, fun hfound => ht.lists_unique hfound hlists⟩

/-- A conditional was executed, so the message that stands in it is left out; an element of the same
paragraph was moved to the end with the message in it, which comes last for that. -/
theorem Moment.frontier_swept_moved :
    let src := "<p>a<if><log>b</log></if><b><log>c</log></b></p><log>d</log>"
    ∃ d s s', Document.parse src = .ok d ∧
      (Request.scan ⟨3⟩).after 2 (ofDocument d (Recorder.ofAnswers [] []) .standard) = some s ∧
      (Request.edit (.appendChild .root ⟨6⟩)).after 2 s = some s' ∧ Moment s' ∧
      s'.executed = [⟨3⟩] ∧ s'.document.nodes.size = 11 ∧
      s'.document.Lists (s'.Collectable .root) [⟨9⟩, ⟨7⟩] ∧
      Sweep.run s' 11 ⟨[.root], []⟩ = some [⟨9⟩, ⟨7⟩] ∧
      s'.document.Lists (s'.Collectable ⟨4⟩) [⟨4⟩] := by
  intro src
  have heval : (Document.parse src).toOption.bind (fun d =>
      ((Request.scan ⟨3⟩).after 2 (ofDocument d (Recorder.ofAnswers [] []) .standard)).bind fun s =>
        ((Request.edit (.appendChild .root ⟨6⟩)).after 2 s).map fun s' =>
          (s'.executed, s'.document.nodes.size, s'.frontier .root, s'.frontier ⟨4⟩)) =
      some ([⟨3⟩], 11, [⟨9⟩, ⟨7⟩], [⟨4⟩]) := by decide +kernel
  obtain ⟨d, hd, heval⟩ := Option.bind_eq_some_iff.mp heval
  obtain ⟨s, hs, heval⟩ := Option.bind_eq_some_iff.mp heval
  obtain ⟨s', hs', heval⟩ := Option.map_eq_some_iff.mp heval
  simp only [Prod.mk.injEq] at heval
  obtain ⟨hexecuted, hsize, hroot, hinner⟩ := heval
  have hparse := Document.parse_of_toOption hd
  have hscanned : Moment s := .after (.request (.scan ⟨3⟩)) 2 (.made _ _ (.parse hparse)) hs
  have hmoment : Moment s' := .after (.request (.edit (.appendChild .root ⟨6⟩))) 2 hscanned hs'
  obtain ⟨hsweep, hlists⟩ := hmoment.frontier_swept .root
  refine ⟨d, s, s', hparse, hs, hs', hmoment, hexecuted, hsize, (hlists _).mp hroot.symm, ?_, ?_⟩
  · rw [hsweep 11 hsize.le, hroot]
  · exact ((hmoment.frontier_swept ⟨4⟩).2 _).mp hinner.symm

end ActiveMarkup.Session
