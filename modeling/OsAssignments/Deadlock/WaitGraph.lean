import OsAssignments.Deadlock.Sweep
import OsAssignments.Library.DirectedCycle

/-!
# Cycle search in the wait-for graph

`deadlockdetect.c` turns the two matrices into a wait-for graph and looks for a
back edge with a three-colour depth-first search. The arrays `visited`, `trace`
and `deadlock_loop` are shared by all activations: deeper calls write `trace`
above the level of their caller, and abandoned calls leave their entries there.
Every index the code uses is checked here: an access outside its array, a read
of an entry that was never written and running out of recursion depth make the
result `none`.

The invariant is `Search.Live`: the visiting tasks are exactly the tasks of the
current path, the path is what `trace` holds below the level, and the processed
tasks are closed under waiting and lie on no cycle. `detectCycleDfs_spec` is the
induction over the recursion, `visitNeighbours_spec` the one over the loop.
-/

namespace Deadlock

open Relation (TransGen)

variable {n m : ℕ}

/-- The values 0, 1 and 2 of an entry of `visited`. -/
inductive Visit
  | unvisited
  | visiting
  | processed
  deriving DecidableEq

def addEdge (adj : Fin n → Fin n → Bool) (i j : Fin n) : Fin n → Fin n → Bool :=
  Function.update adj i (Function.update (adj i) j true)

/-- The three nested loops that fill the cleared adjacency matrix. -/
def constructWaitGraph (allocMat reqMat : Table n m) : Fin n → Fin n → Bool :=
  (List.finRange n).foldl (fun adj reqProc =>
    (List.finRange m).foldl (fun adj r =>
      if reqMat reqProc r ≠ 0 then
        (List.finRange n).foldl (fun adj ownProc =>
          if allocMat ownProc r ≠ 0 then addEdge adj reqProc ownProc else adj) adj
      else adj) adj) fun _ _ => false

/-- The arrays of the search; `deadlockLoop` holds the first `loop_size`
entries of its array. -/
structure Search (n : ℕ) where
  visited : Fin n → Visit
  trace : Fin n → Option (Fin n)
  deadlockLoop : List (Fin n)

/-- `trace[k]`, when `k` is in bounds and the entry has been written. -/
def readTrace (trace : Fin n → Option (Fin n)) (k : ℕ) : Option (Fin n) :=
  if h : k < n then trace ⟨k, h⟩ else none

/-- The loop that looks for the start of the cycle, from index `k` on, with
`fuel` indices left in the array. -/
def findStart (trace : Fin n → Option (Fin n)) (nextNode : Fin n) :
    ℕ → ℕ → Option ℕ
  | 0, _ => none
  | fuel + 1, k => do
      let t ← readTrace trace k
      if t = nextNode then some k else findStart trace nextNode fuel (k + 1)

/-- `deadlock_loop[(*loop_size)++] = t`; the array has `n + 1` entries. -/
def pushLoop (loop : List (Fin n)) (t : Fin n) : Option (List (Fin n)) :=
  if loop.length < n + 1 then some (loop ++ [t]) else none

/-- `deadlock_loop[(*loop_size)++] = trace[k]`. -/
def copyEntry (trace : Fin n → Option (Fin n)) (loop : List (Fin n)) (k : ℕ) :
    Option (List (Fin n)) :=
  (readTrace trace k).bind (pushLoop loop)

/-- Copy the path from the start of the cycle and close the loop. -/
def extractLoop (trace : Fin n → Option (Fin n)) (nextNode : Fin n) (level : ℕ) :
    Option (List (Fin n)) := do
  let start ← findStart trace nextNode n 0
  let loop ← (List.range' start (level - start)).foldlM (copyEntry trace) []
  pushLoop loop nextNode

/-- The loop over `next_node`, with the recursive call as a parameter. -/
def visitNeighbours (visit : Fin n → Search n → Option (Bool × Search n))
    (adj : Fin n → Fin n → Bool) (node : Fin n) (level : ℕ) :
    List (Fin n) → Search n → Option (Bool × Search n)
  | [], s => some (false, s)
  | nextNode :: rest, s =>
      if adj node nextNode = false then
        visitNeighbours visit adj node level rest s
      else do
        let (found, s) ←
          if s.visited nextNode = .unvisited then visit nextNode s
          else some (false, s)
        if found then some (true, s)
        else if s.visited nextNode = .visiting then do
          let loop ← extractLoop s.trace nextNode level
          some (true, { s with deadlockLoop := loop })
        else visitNeighbours visit adj node level rest s

/-- Mark `node` as being visited and record it in the trace. -/
def Search.enter (s : Search n) (level node : Fin n) : Search n :=
  { s with
    visited := Function.update s.visited node .visiting
    trace := Function.update s.trace level (some node) }

/-- Mark `node` as processed. -/
def Search.leave (s : Search n) (node : Fin n) : Search n :=
  { s with visited := Function.update s.visited node .processed }

/-- `detect_cycle_dfs`; the first argument bounds the depth of the recursion. -/
def detectCycleDfs (adj : Fin n → Fin n → Bool) :
    ℕ → ℕ → Fin n → Search n → Option (Bool × Search n)
  | 0, _, _, _ => none
  | fuel + 1, level, node, s =>
      if h : level < n then do
        let (found, s) ← visitNeighbours (detectCycleDfs adj fuel (level + 1))
          adj node (level + 1) (List.finRange n) (s.enter ⟨level, h⟩ node)
        if found then some (true, s) else some (false, s.leave node)
      else none

/-- The loop of `evaluate_scenario` over the tasks, until a cycle is found. -/
def searchTasks (adj : Fin n → Fin n → Bool) :
    List (Fin n) → Search n → Option (Bool × Search n)
  | [], s => some (false, s)
  | i :: rest, s =>
      if s.visited i = .unvisited then do
        let (found, s) ← detectCycleDfs adj n 0 i s
        if found then some (true, s) else searchTasks adj rest s
      else searchTasks adj rest s

/-- `has_deadlock` and the reported `deadlock_loop`. -/
def evaluateScenario (allocMat reqMat : Table n m) : Option (Bool × List (Fin n)) :=
  (searchTasks (constructWaitGraph allocMat reqMat) (List.finRange n)
    { visited := fun _ => .unvisited, trace := fun _ => none,
      deadlockLoop := [] }).map fun r => (r.1, r.2.deadlockLoop)

section Graph

end Graph

def Edge (adj : Fin n → Fin n → Bool) (v w : Fin n) : Prop := adj v w = true

namespace Search

/-- The search is at `path`: the tasks being visited are those of the path,
which is what `trace` holds below the level, and the processed tasks are closed
under waiting and lie on no cycle. -/
structure Live (adj : Fin n → Fin n → Bool) (path : List (Fin n)) (s : Search n) :
    Prop where
  trace_eq : ∀ k, k < path.length → readTrace s.trace k = path[k]?
  nodup : path.Nodup
  chain : path.IsChain (Edge adj)
  visiting_iff : ∀ v, s.visited v = .visiting ↔ v ∈ path
  closed : ∀ v w, s.visited v = .processed → Edge adj v w → s.visited w = .processed
  acyclic : ∀ v, s.visited v = .processed → ¬ TransGen (Edge adj) v v

/-- Tasks are only ever recoloured forwards. -/
structure Extends (s t : Search n) : Prop where
  processed : ∀ v, s.visited v = .processed → t.visited v = .processed
  unvisited : ∀ v, t.visited v = .unvisited → s.visited v = .unvisited

theorem Extends.refl (s : Search n) : s.Extends s := ⟨fun _ h => h, fun _ h => h⟩

theorem Extends.trans {s t u : Search n} (h : s.Extends t) (h' : t.Extends u) :
    s.Extends u :=
  ⟨fun v hv => h'.processed v (h.processed v hv),
    fun v hv => h.unvisited v (h'.unvisited v hv)⟩

def unvisitedSet (s : Search n) : Finset (Fin n) :=
  Finset.univ.filter fun v => s.visited v = .unvisited

@[simp] theorem mem_unvisitedSet (s : Search n) (v : Fin n) :
    v ∈ s.unvisitedSet ↔ s.visited v = .unvisited := by
  simp [unvisitedSet]

theorem Extends.card_le {s t : Search n} (h : s.Extends t) :
    t.unvisitedSet.card ≤ s.unvisitedSet.card := by
  apply Finset.card_le_card
  intro v hv
  rw [mem_unvisitedSet] at hv ⊢
  exact h.unvisited v hv

/-- How a part of the search that starts at `s` and returns to `path` may end:
with a cycle reported, or at the same path with the tasks of `done` processed. -/
structure Ends (adj : Fin n → Fin n → Bool) (path : List (Fin n)) (s : Search n)
    (done : Fin n → Prop) (r : Bool × Search n) : Prop where
  cycle : r.1 = true → DirectedCycle.IsCycle (Edge adj) r.2.deadlockLoop
  live : r.1 = false → r.2.Live adj path
  extends_of : r.1 = false → s.Extends r.2
  processed : r.1 = false → ∀ v, done v → r.2.visited v = .processed

/-- The state in which a cycle was found: the search for its start stopped
inside the path, and what is reported is the path from there on, closed by
`nextNode`. -/
structure Found (adj : Fin n → Fin n → Bool) (path : List (Fin n)) (start : ℕ)
    (nextNode : Fin n) (s : Search n) : Prop where
  live : s.Live adj path
  start_lt : start < path.length
  findStart_eq : findStart s.trace nextNode n 0 = some start
  loop_eq : s.deadlockLoop = path.drop start ++ [nextNode]

/-- The activations between the one that finds a cycle and the caller leave the
arrays as it left them. -/
def Reports (adj : Fin n → Fin n → Bool) (r : Bool × Search n) : Prop :=
  r.1 = true → ∃ path start nextNode, r.2.Found adj path start nextNode

theorem reports_false (adj : Fin n → Fin n → Bool) (s : Search n) :
    Reports adj (false, s) := by
  simp [Reports]

variable {adj : Fin n → Fin n → Bool} {path : List (Fin n)} {s : Search n}

theorem Live.length_le (h : s.Live adj path) : path.length ≤ n := by
  simpa using h.nodup.length_le_card

theorem findStart_spec {trace : Fin n → Option (Fin n)} {nextNode : Fin n}
    (htrace : ∀ k, k < path.length → readTrace trace k = path[k]?)
    (fuel k : ℕ) {j : ℕ} (hkj : k ≤ j) (hj : j < k + fuel)
    (hnext : path[j]? = some nextNode) :
    ∃ start, findStart trace nextNode fuel k = some start ∧
      path[start]? = some nextNode := by
  induction fuel generalizing k with
  | zero => omega
  | succ fuel ih =>
      have hjlen : j < path.length := (List.getElem?_eq_some_iff.1 hnext).1
      have hk : k < path.length := by omega
      have hread : readTrace trace k = some path[k] := by
        rw [htrace k hk, List.getElem?_eq_getElem hk]
      by_cases ht : path[k] = nextNode
      · refine ⟨k, by simp [findStart, hread, ht], ?_⟩
        rw [List.getElem?_eq_getElem hk, ht]
      · have hne : k ≠ j := by
          rintro rfl
          rw [List.getElem?_eq_getElem hk, Option.some.injEq] at hnext
          exact ht hnext
        obtain ⟨start, hstart, hget⟩ := ih (k + 1) (by omega) (by omega)
        exact ⟨start, by simp [findStart, hread, ht, hstart], hget⟩

theorem foldlM_copyEntry {trace : Fin n → Option (Fin n)}
    (htrace : ∀ k, k < path.length → readTrace trace k = path[k]?)
    (len k : ℕ) (loop : List (Fin n)) (hk : k + len = path.length)
    (hlen : loop.length + len ≤ n) :
    (List.range' k len).foldlM (copyEntry trace) loop = some (loop ++ path.drop k) := by
  induction len generalizing k loop with
  | zero =>
      have hdrop : path.drop k = [] := List.drop_eq_nil_of_le (by omega)
      simp [hdrop]
  | succ len ih =>
      have hlt : k < path.length := by omega
      have hcopy : copyEntry trace loop k = some (loop ++ [path[k]]) := by
        rw [copyEntry, htrace k hlt, List.getElem?_eq_getElem hlt, Option.bind_some]
        exact if_pos (by omega)
      have hrest := ih (k + 1) (loop ++ [path[k]]) (by omega)
        (by rw [List.length_append, List.length_singleton]; omega)
      rw [List.range'_succ, List.foldlM_cons, hcopy, Option.bind_eq_bind,
        Option.bind_some, hrest, List.drop_eq_getElem_cons hlt, List.append_assoc,
        List.singleton_append]

theorem extractLoop_spec (h : s.Live adj path) {nextNode : Fin n}
    (hnext : nextNode ∈ path)
    (hedge : ∀ last ∈ path.getLast?, Edge adj last nextNode) :
    ∃ loop start, extractLoop s.trace nextNode path.length = some loop ∧
      DirectedCycle.IsCycle (Edge adj) loop ∧
      ({ s with deadlockLoop := loop } : Search n).Found adj path start nextNode := by
  obtain ⟨j, hj⟩ := List.mem_iff_getElem?.1 hnext
  have hjlen : j < path.length := (List.getElem?_eq_some_iff.1 hj).1
  have hn := h.length_le
  obtain ⟨start, hstart, hget⟩ :=
    findStart_spec h.trace_eq n 0 (Nat.zero_le j) (by omega) hj
  obtain ⟨hslen, hsget⟩ := List.getElem?_eq_some_iff.1 hget
  have hloop := foldlM_copyEntry h.trace_eq (path.length - start) start [] (by omega)
    (by rw [List.length_nil]; omega)
  have hpush : pushLoop (path.drop start) nextNode = some (path.drop start ++ [nextNode]) :=
    if_pos (by rw [List.length_drop]; omega)
  refine ⟨path.drop start ++ [nextNode], start, ?_, ?_, ?_⟩
  · rw [List.nil_append] at hloop
    simp [extractLoop, hstart, hloop, hpush]
  · have hcons : path.drop start = nextNode :: path.drop (start + 1) := by
      rw [List.drop_eq_getElem_cons hslen, hsget]
    refine ⟨nextNode, path.drop (start + 1), by rw [hcons], ?_, ?_⟩
    · rw [← hcons]
      exact h.nodup.sublist (List.drop_sublist start path)
    · refine (h.chain.drop start).append (List.isChain_singleton nextNode) ?_
      intro last hlast next hnext'
      rw [List.head?_singleton, Option.mem_some_iff] at hnext'
      subst hnext'
      refine hedge last ?_
      rw [List.getLast?_drop, if_neg (not_le.2 hslen)] at hlast
      exact hlast
  · refine ⟨?_, hslen, hstart, rfl⟩
    exact ⟨h.trace_eq, h.nodup, h.chain, h.visiting_iff, h.closed, h.acyclic⟩

@[simp] theorem enter_visited_self (s : Search n) (level node : Fin n) :
    (s.enter level node).visited node = .visiting := by
  simp [enter]

theorem enter_visited_of_ne (s : Search n) (level : Fin n) {node v : Fin n}
    (h : v ≠ node) : (s.enter level node).visited v = s.visited v := by
  simp [enter, h]

@[simp] theorem enter_trace_self (s : Search n) (level node : Fin n) :
    (s.enter level node).trace level = some node := by
  simp [enter]

theorem enter_trace_of_ne (s : Search n) {level k : Fin n} (node : Fin n)
    (h : k ≠ level) : (s.enter level node).trace k = s.trace k := by
  simp [enter, h]

@[simp] theorem leave_visited_self (s : Search n) (node : Fin n) :
    (s.leave node).visited node = .processed := by
  simp [leave]

theorem leave_visited_of_ne (s : Search n) {node v : Fin n} (h : v ≠ node) :
    (s.leave node).visited v = s.visited v := by
  simp [leave, h]

theorem extends_enter (s : Search n) (level : Fin n) {node : Fin n}
    (h : s.visited node = .unvisited) : s.Extends (s.enter level node) := by
  refine ⟨fun v hv => ?_, fun v hv => ?_⟩
  · by_cases hvn : v = node
    · rw [hvn, h] at hv
      cases hv
    · rwa [s.enter_visited_of_ne level hvn]
  · by_cases hvn : v = node
    · rw [hvn, h]
    · rwa [s.enter_visited_of_ne level hvn] at hv

theorem extends_leave (s : Search n) (node : Fin n) : s.Extends (s.leave node) := by
  refine ⟨fun v hv => ?_, fun v hv => ?_⟩
  · by_cases hvn : v = node
    · rw [hvn, s.leave_visited_self]
    · rwa [s.leave_visited_of_ne hvn]
  · by_cases hvn : v = node
    · rw [hvn, s.leave_visited_self] at hv
      cases hv
    · rwa [s.leave_visited_of_ne hvn] at hv

theorem card_unvisitedSet_enter_lt (s : Search n) (level : Fin n) {node : Fin n}
    (h : s.visited node = .unvisited) :
    (s.enter level node).unvisitedSet.card < s.unvisitedSet.card := by
  refine Finset.card_lt_card ⟨fun v hv => ?_, fun hsub => ?_⟩
  · rw [mem_unvisitedSet] at hv ⊢
    exact (s.extends_enter level h).unvisited v hv
  · have hnode := hsub ((s.mem_unvisitedSet node).2 h)
    rw [mem_unvisitedSet, s.enter_visited_self] at hnode
    cases hnode

theorem Live.enter (h : s.Live adj path) {node : Fin n} (hnode : s.visited node = .unvisited)
    (hedge : ∀ last ∈ path.getLast?, Edge adj last node) (hlevel : path.length < n) :
    (s.enter ⟨path.length, hlevel⟩ node).Live adj (path ++ [node]) := by
  have hfresh : node ∉ path := by
    rw [← h.visiting_iff node, hnode]
    simp
  refine ⟨?_, ?_, ?_, ?_, ?_, ?_⟩
  · intro k hk
    rw [List.length_append, List.length_singleton] at hk
    rcases Nat.lt_succ_iff_lt_or_eq.1 hk with hlt | rfl
    · have hne : (⟨k, hlt.trans hlevel⟩ : Fin n) ≠ ⟨path.length, hlevel⟩ := by
        simpa using hlt.ne
      have hold := h.trace_eq k hlt
      rw [readTrace, dif_pos (hlt.trans hlevel)] at hold ⊢
      rw [s.enter_trace_of_ne node hne, hold, List.getElem?_append_left hlt]
    · simp [readTrace, hlevel]
  · rw [List.nodup_append]
    refine ⟨h.nodup, List.nodup_singleton node, ?_⟩
    rintro v hv _ hw rfl
    exact hfresh (List.mem_singleton.1 hw ▸ hv)
  · refine h.chain.append (List.isChain_singleton node) ?_
    intro last hlast next hnext
    rw [List.head?_singleton, Option.mem_some_iff] at hnext
    exact hnext ▸ hedge last hlast
  · intro v
    by_cases hv : v = node
    · simp [hv]
    · simp [s.enter_visited_of_ne _ hv, hv, h.visiting_iff v]
  · intro v w hv hE
    by_cases hvn : v = node
    · simp [hvn] at hv
    · rw [s.enter_visited_of_ne _ hvn] at hv
      exact (s.extends_enter _ hnode).processed w (h.closed v w hv hE)
  · intro v hv
    by_cases hvn : v = node
    · simp [hvn] at hv
    · rw [s.enter_visited_of_ne _ hvn] at hv
      exact h.acyclic v hv

/-- Once everything `node` waits for is processed, `node` leaves the path as a
processed task: it is on no cycle, since its successors never lead back. -/
theorem Live.leave {node : Fin n} (h : s.Live adj (path ++ [node]))
    (hsucc : ∀ w, Edge adj node w → s.visited w = .processed) :
    (s.leave node).Live adj path := by
  have hvisiting : s.visited node = .visiting :=
    (h.visiting_iff node).2 (List.mem_append_right path (List.mem_singleton_self node))
  have hnode : node ∉ path := fun hmem =>
    (List.nodup_append.1 h.nodup).2.2 node hmem node (List.mem_singleton_self node) rfl
  have hnotcyclic : ¬ TransGen (Edge adj) node node := by
    refine DirectedCycle.not_transGen_self h.closed ?_ hsucc
    rw [hvisiting]
    simp
  refine ⟨?_, ?_, h.chain.left_of_append, ?_, ?_, ?_⟩
  · intro k hk
    have hold := h.trace_eq k (by rw [List.length_append]; omega)
    rwa [List.getElem?_append_left hk] at hold
  · exact (List.nodup_append.1 h.nodup).1
  · intro v
    by_cases hv : v = node
    · simp [hv, hnode]
    · simp [s.leave_visited_of_ne hv, hv, h.visiting_iff v]
  · intro v w hv hE
    refine (s.extends_leave node).processed w ?_
    by_cases hvn : v = node
    · exact hsucc w (hvn ▸ hE)
    · rw [s.leave_visited_of_ne hvn] at hv
      exact h.closed v w hv hE
  · intro v hv
    by_cases hvn : v = node
    · rw [hvn]
      exact hnotcyclic
    · rw [s.leave_visited_of_ne hvn] at hv
      exact h.acyclic v hv

/-- The loop over the neighbours of the last task of the path, given that the
recursive call behaves on every unvisited neighbour. -/
theorem visitNeighbours_spec (visit : Fin n → Search n → Option (Bool × Search n))
    {node : Fin n} (hlast : path.getLast? = some node) (bound : ℕ)
    (hvisit : ∀ v t, t.Live adj path → t.visited v = .unvisited → Edge adj node v →
      t.unvisitedSet.card ≤ bound →
      ∃ r, visit v t = some r ∧ Ends adj path t (fun w => w = v) r ∧ Reports adj r)
    (l : List (Fin n)) (h : s.Live adj path) (hbound : s.unvisitedSet.card ≤ bound) :
    ∃ r, visitNeighbours visit adj node path.length l s = some r ∧
      Ends adj path s (fun w => w ∈ l ∧ Edge adj node w) r ∧ Reports adj r := by
  induction l generalizing s with
  | nil =>
      exact ⟨(false, s), rfl,
        ⟨by simp, fun _ => h, fun _ => Extends.refl s, by simp⟩, reports_false adj s⟩
  | cons v l ih =>
      by_cases hedge : adj node v = false
      · obtain ⟨r, hr, hends, hreports⟩ := ih h hbound
        refine ⟨r, by simp [visitNeighbours, hedge, hr],
          ⟨hends.cycle, hends.live, hends.extends_of, ?_⟩, hreports⟩
        rintro hfalse w ⟨hw, hE⟩
        rcases List.mem_cons.1 hw with rfl | hw
        · exact absurd hE (by simp [Edge, hedge])
        · exact hends.processed hfalse w ⟨hw, hE⟩
      · rw [Bool.not_eq_false] at hedge
        -- The loop goes on from `t`, where `v` has been processed.
        have hrest : ∀ t, t.Live adj path → s.Extends t → t.visited v = .processed →
            ∃ r, visitNeighbours visit adj node path.length l t = some r ∧
              Ends adj path s (fun w => w ∈ v :: l ∧ Edge adj node w) r ∧
                Reports adj r := by
          intro t ht hext hv
          obtain ⟨r, hr, hends, hreports⟩ := ih ht (hext.card_le.trans hbound)
          refine ⟨r, hr, ⟨hends.cycle, hends.live,
            fun hfalse => hext.trans (hends.extends_of hfalse), ?_⟩, hreports⟩
          rintro hfalse w ⟨hw, hE⟩
          rcases List.mem_cons.1 hw with rfl | hw
          · exact (hends.extends_of hfalse).processed w hv
          · exact hends.processed hfalse w ⟨hw, hE⟩
        cases hcolour : s.visited v with
        | unvisited =>
            obtain ⟨⟨found, t⟩, hr, hends, hreports⟩ :=
              hvisit v s h hcolour hedge hbound
            cases found with
            | true =>
                refine ⟨(true, t), by simp [visitNeighbours, hedge, hcolour, hr],
                  ⟨hends.cycle, by simp, by simp, by simp⟩, hreports⟩
            | false =>
                have hv : t.visited v = .processed := hends.processed rfl v rfl
                obtain ⟨r, hr', hends'⟩ := hrest t (hends.live rfl) (hends.extends_of rfl) hv
                exact ⟨r, by simp [visitNeighbours, hedge, hcolour, hr, hv, hr'], hends'⟩
        | visiting =>
            have hmem : v ∈ path := (h.visiting_iff v).1 hcolour
            obtain ⟨loop, start, hloop, hcycle, hfound⟩ := extractLoop_spec h hmem (by
              intro last hl
              rw [hlast, Option.mem_some_iff] at hl
              exact hl ▸ hedge)
            exact ⟨(true, { s with deadlockLoop := loop }),
              by simp [visitNeighbours, hedge, hcolour, hloop],
              ⟨fun _ => hcycle, by simp, by simp, by simp⟩,
              fun _ => ⟨path, start, v, hfound⟩⟩
        | processed =>
            obtain ⟨r, hr, hends⟩ := hrest s h (Extends.refl s) hcolour
            exact ⟨r, by simp [visitNeighbours, hedge, hcolour, hr], hends⟩

/-- A call on an unvisited successor of the path returns, with every index in
bounds: either with a cycle, or with its task processed and the path restored. -/
theorem detectCycleDfs_spec (fuel : ℕ) {node : Fin n} (h : s.Live adj path)
    (hnode : s.visited node = .unvisited)
    (hedge : ∀ last ∈ path.getLast?, Edge adj last node)
    (hfuel : s.unvisitedSet.card ≤ fuel) :
    ∃ r, detectCycleDfs adj fuel path.length node s = some r ∧
      Ends adj path s (fun w => w = node) r ∧ Reports adj r := by
  -- Induction over the recursion depth: each activation visits one task more.
  induction fuel generalizing s path node with
  | zero =>
      have hpos := Finset.card_pos.2 ⟨node, (s.mem_unvisitedSet node).2 hnode⟩
      omega
  | succ fuel ih =>
      have hlevel : path.length < n := by
        have hfresh : node ∉ path := by
          rw [← h.visiting_iff node, hnode]
          simp
        have hnodup : (node :: path).Nodup := List.nodup_cons.2 ⟨hfresh, h.nodup⟩
        simpa [Nat.succ_le_iff] using hnodup.length_le_card
      have hextends := s.extends_enter ⟨path.length, hlevel⟩ hnode
      have hcard := s.card_unvisitedSet_enter_lt ⟨path.length, hlevel⟩ hnode
      have hlast : (path ++ [node]).getLast? = some node := by simp
      obtain ⟨⟨found, t⟩, hloop, hends, hreports⟩ := visitNeighbours_spec
        (detectCycleDfs adj fuel (path ++ [node]).length) hlast fuel
        (fun v t ht hv hE hle => ih ht hv (by
          intro last hl
          rw [hlast, Option.mem_some_iff] at hl
          exact hl ▸ hE) hle)
        (List.finRange n) (h.enter hnode hedge hlevel) (by omega)
      rw [List.length_append, List.length_singleton] at hloop
      cases found with
      | true =>
          exact ⟨(true, t), by simp [detectCycleDfs, hlevel, hloop],
            ⟨hends.cycle, by simp, by simp, by simp⟩, hreports⟩
      | false =>
          have hsucc : ∀ w, Edge adj node w → t.visited w = .processed := fun w hE =>
            hends.processed rfl w ⟨List.mem_finRange w, hE⟩
          refine ⟨(false, t.leave node), by simp [detectCycleDfs, hlevel, hloop],
            ⟨by simp, fun _ => (hends.live rfl).leave hsucc,
              fun _ => (hextends.trans (hends.extends_of rfl)).trans (t.extends_leave node),
              ?_⟩, reports_false adj _⟩
          rintro - v rfl
          exact t.leave_visited_self v

theorem searchTasks_spec (l : List (Fin n)) (h : s.Live adj []) :
    ∃ r, searchTasks adj l s = some r ∧ Ends adj [] s (fun w => w ∈ l) r ∧
      Reports adj r := by
  induction l generalizing s with
  | nil =>
      exact ⟨(false, s), rfl,
        ⟨by simp, fun _ => h, fun _ => Extends.refl s, by simp⟩, reports_false adj s⟩
  | cons i l ih =>
      have hrest : ∀ t, t.Live adj [] → s.Extends t → t.visited i = .processed →
          ∃ r, searchTasks adj l t = some r ∧ Ends adj [] s (fun w => w ∈ i :: l) r ∧
            Reports adj r := by
        intro t ht hext hi
        obtain ⟨r, hr, hends, hreports⟩ := ih ht
        refine ⟨r, hr, ⟨hends.cycle, hends.live,
          fun hfalse => hext.trans (hends.extends_of hfalse), ?_⟩, hreports⟩
        intro hfalse w hw
        rcases List.mem_cons.1 hw with rfl | hw
        · exact (hends.extends_of hfalse).processed w hi
        · exact hends.processed hfalse w hw
      cases hcolour : s.visited i with
      | unvisited =>
          obtain ⟨⟨found, t⟩, hr, hends, hreports⟩ := detectCycleDfs_spec n h hcolour (by simp)
            (by simpa using Finset.card_le_univ s.unvisitedSet)
          rw [List.length_nil] at hr
          cases found with
          | true =>
              exact ⟨(true, t), by simp [searchTasks, hcolour, hr],
                ⟨hends.cycle, by simp, by simp, by simp⟩, hreports⟩
          | false =>
              obtain ⟨r, hr', hends'⟩ := hrest t (hends.live rfl) (hends.extends_of rfl)
                (hends.processed rfl i rfl)
              exact ⟨r, by simp [searchTasks, hcolour, hr, hr'], hends'⟩
      | visiting =>
          exact absurd ((h.visiting_iff i).1 hcolour) List.not_mem_nil
      | processed =>
          obtain ⟨r, hr, hends⟩ := hrest s h (Extends.refl s) hcolour
          exact ⟨r, by simp [searchTasks, hcolour, hr], hends⟩

end Search

theorem Search.live_start (adj : Fin n → Fin n → Bool) :
    Search.Live adj []
      { visited := fun _ => .unvisited, trace := fun _ => none, deadlockLoop := [] } := by
  refine ⟨?_, ?_, ?_, ?_, ?_, ?_⟩ <;> simp

/-- The search returns with every index in bounds, and reports 1 exactly when
the wait-for graph has a cycle. What it has then written is a cycle of the
graph, the part of the current path on which its search for the start stopped. -/
theorem searchTasks_finds_cycle (allocMat reqMat : Table n m) :
    ∃ hasDeadlock s, searchTasks (constructWaitGraph allocMat reqMat) (List.finRange n)
        { visited := fun _ => .unvisited, trace := fun _ => none,
          deadlockLoop := [] } = some (hasDeadlock, s) ∧
      evaluateScenario allocMat reqMat = some (hasDeadlock, s.deadlockLoop) ∧
      (hasDeadlock = true ↔
        ∃ v, TransGen (Edge (constructWaitGraph allocMat reqMat)) v v) ∧
      (hasDeadlock = true →
        DirectedCycle.IsCycle (Edge (constructWaitGraph allocMat reqMat))
          s.deadlockLoop ∧
        s.deadlockLoop.length ≤ n + 1 ∧
        ∃ path start nextNode,
          s.Found (constructWaitGraph allocMat reqMat) path start nextNode) := by
  set adj := constructWaitGraph allocMat reqMat
  obtain ⟨⟨hasDeadlock, s⟩, hr, hends, hreports⟩ :=
    Search.searchTasks_spec (List.finRange n) (Search.live_start adj)
  refine ⟨hasDeadlock, s, hr, by rw [evaluateScenario, hr, Option.map_some], ?_, ?_⟩
  · constructor
    · exact fun htrue => (hends.cycle htrue).exists_transGen
    · rintro ⟨v, hv⟩
      by_contra hfalse
      rw [Bool.not_eq_true] at hfalse
      have hprocessed := hends.processed hfalse v (List.mem_finRange v)
      exact (hends.live hfalse).acyclic v hprocessed hv
  · intro htrue
    obtain ⟨path, start, nextNode, hfound⟩ := hreports htrue
    refine ⟨hends.cycle htrue, ?_, path, start, nextNode, hfound⟩
    have hlen := hfound.live.length_le
    rw [hfound.loop_eq, List.length_append, List.length_drop, List.length_singleton]
    omega

end Deadlock
