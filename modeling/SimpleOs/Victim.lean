/-
# `SimpleOs.Victim` — the replacement list, node by node

`enlist_pgn_node` (`mm64.c`) puts a node in front of a singly linked list, and
`find_victim_page` (`libmem.c`) walks to its end, unlinks the last node and frees it.
Here both work on a heap of `struct pgn_t`, which holds the nodes of whoever else
uses it as well.  `malloc` may return any address at which no node is live.

`victim_fifo`: over any interleaving of the two the pages come back in the order
in which they were enlisted, each enlistment once.  `Region.findVictimPage` is the
same function on the list that the heap shows (`PgnMem.region_findVictimPage`).
-/
import SimpleOs.Lib.Chain
import SimpleOs.Lib.Run
import SimpleOs.Region

namespace SimpleOs

/-- `struct pgn_t`: `val` is `pgn` and `next` is `pg_next`. -/
abbrev PgnT := Chain.Node Nat

/-- The live nodes, and the head `mm->fifo_pgn` of one list. -/
structure PgnMem where
  heap : Chain.Heap Nat
  fifoPgn : Nat

namespace PgnMem

/-- `enlist_pgn_node`, `malloc` having returned `pnode`.  The fields are written without a test for
NULL, which has no result here. -/
def enlistPgnNode (m : PgnMem) (pnode pgn : Nat) : Option PgnMem :=
  if pnode = 0 then none
  else some
    { heap := Function.update m.heap pnode (some ⟨pgn, m.fifoPgn⟩)
      fifoPgn := pnode }

/-- The loop `while (pg->pg_next) { prev = pg; pg = pg->pg_next; }` in at most this many rounds.  No
result: more rounds are needed, or no node is live at `pg`. -/
def walk (heap : Chain.Heap Nat) (prev pg : Nat) : Nat → Option (Nat × Nat)
  | 0 => none
  | n + 1 => do
      let node ← heap pg
      if node.next = 0 then some (prev, pg) else walk heap pg node.next n

/-- `prev->pg_next = NULL`. -/
def cut (m : PgnMem) (prev : Nat) : Option PgnMem := do
  let node ← m.heap prev
  pure { m with heap := Function.update m.heap prev (some ⟨node.val, 0⟩) }

/-- `find_victim_page`: the state after it and `*retpgn`, or `none` for -1. -/
def findVictimPage (m : PgnMem) (rounds : Nat) : Option (PgnMem × Option Nat) :=
  if m.fifoPgn = 0 then some (m, none)
  else do
    let (prev, pg) ← walk m.heap 0 m.fifoPgn rounds
    let node ← m.heap pg
    let m ← if prev ≠ 0 then m.cut prev else some { m with fifoPgn := 0 }
    pure ({ m with heap := Function.update m.heap pg none }, some node.val)

/-- `nodes` are the list at `fifo_pgn`. -/
def Shows (m : PgnMem) (nodes : List (Nat × Nat)) : Prop := Chain.IsList m.heap m.fifoPgn nodes

/-! ## The two functions on the list -/

section Calls
variable {m : PgnMem} {nodes : List (Nat × Nat)}

/-- The walk ends at the last node, `prev` being the one before it. -/
theorem walk_concat {heap : Chain.Heap Nat} {b w : Nat} : ∀ {nodes : List (Nat × Nat)}
    {prev pg n : Nat}, Chain.Seg heap pg (nodes ++ [(b, w)]) 0 → nodes.length < n →
    walk heap prev pg n = some ((nodes.map Prod.fst).getLastD prev, b) := by
  intro nodes
  induction nodes with
  | nil =>
      intro prev pg n hs hn
      obtain ⟨rfl, -, next, hb, rfl⟩ := hs
      obtain ⟨n, rfl⟩ := Nat.exists_eq_succ_of_ne_zero (Nat.ne_of_gt hn)
      simp [walk, hb]
  | cons node nodes ih =>
      intro prev pg n hs hn
      obtain ⟨a, v⟩ := node
      obtain ⟨rfl, -, next, ha, hs⟩ := hs
      obtain ⟨n, rfl⟩ := Nat.exists_eq_succ_of_ne_zero (Nat.ne_of_gt (Nat.zero_lt_of_lt hn))
      have hnext : next ≠ 0 := by
        cases nodes with
        | nil => exact hs.1 ▸ hs.2.1
        | cons node _ => exact hs.1 ▸ hs.2.1
      rw [walk, ha]
      simp only [Option.bind_eq_bind, Option.bind_some, if_neg hnext]
      rw [ih hs (Nat.lt_of_succ_lt_succ hn), List.map_cons, List.getLastD_cons]

theorem walk_mono {heap : Chain.Heap Nat} {r : Nat × Nat} : ∀ {n n' prev pg : Nat}, n ≤ n' →
    walk heap prev pg n = some r → walk heap prev pg n' = some r := by
  intro n
  induction n with
  | zero => intro n' prev pg _ h; exact nomatch h
  | succ n ih =>
      intro n' prev pg hn h
      obtain ⟨n', rfl⟩ := Nat.exists_eq_succ_of_ne_zero (Nat.ne_of_gt (Nat.zero_lt_of_lt hn))
      rw [walk] at h ⊢
      obtain ⟨node, hnode, h⟩ := Option.bind_eq_some_iff.mp h
      refine Option.bind_eq_some_iff.mpr ⟨node, hnode, ?_⟩
      by_cases hnext : node.next = 0
      · rwa [if_pos hnext] at h ⊢
      · rw [if_neg hnext] at h ⊢
        exact ih (Nat.le_of_succ_le_succ hn) h

/-- More rounds than needed change nothing. -/
theorem findVictimPage_mono {r : PgnMem × Option Nat} {n n' : Nat} (hn : n ≤ n')
    (h : m.findVictimPage n = some r) : m.findVictimPage n' = some r := by
  rw [findVictimPage] at h ⊢
  by_cases h₀ : m.fifoPgn = 0
  · rwa [if_pos h₀] at h ⊢
  · rw [if_neg h₀] at h ⊢
    obtain ⟨⟨prev, pg⟩, hwalk, h⟩ := Option.bind_eq_some_iff.mp h
    exact Option.bind_eq_some_iff.mpr ⟨(prev, pg), walk_mono hn hwalk, h⟩

theorem Shows.enlist (h : m.Shows nodes) {pnode : Nat} (h₀ : pnode ≠ 0)
    (hfresh : m.heap pnode = none) (pgn : Nat) : ∃ m', m.enlistPgnNode pnode pgn = some m' ∧
    m'.Shows ((pnode, pgn) :: nodes) ∧ ∀ a, a ≠ pnode → m'.heap a = m.heap a := by
  refine ⟨_, if_neg h₀, Chain.IsList.push h h₀ hfresh pgn, fun a ha => ?_⟩
  exact Function.update_of_ne ha _ _

/-- `find_victim_page` takes the last node, whatever rounds it is given beyond the length, and
touches no node outside the list. -/
theorem Shows.find (h : m.Shows nodes) : ∃ m',
    (∀ rounds ≥ nodes.length,
      m.findVictimPage rounds = some (m', (nodes.map Prod.snd).getLast?)) ∧
    m'.Shows nodes.dropLast ∧ (nodes = [] → m' = m) ∧
    ∀ a, a ∉ nodes.map Prod.fst → m'.heap a = m.heap a := by
  rcases List.eq_nil_or_concat' nodes with rfl | ⟨init, ⟨b, w⟩, rfl⟩
  · exact ⟨m, fun _ _ => if_pos (h.eq_nil_iff.mp rfl), h, fun _ => rfl, fun _ _ => rfl⟩
  · have h₀ : m.fifoPgn ≠ 0 := fun hc => by simpa using h.eq_nil_iff.mpr hc
    obtain ⟨hinit, -, hb⟩ := Chain.seg_concat.mp h.seg
    have hwalk : ∀ rounds ≥ (init ++ [(b, w)]).length, walk m.heap 0 m.fifoPgn rounds =
        some ((init.map Prod.fst).getLastD 0, b) := by
      intro rounds hr
      rw [List.length_append, List.length_singleton] at hr
      exact walk_concat h.seg hr
    have hsnd : ((init ++ [(b, w)]).map Prod.snd).getLast? = some w := by simp
    rw [List.dropLast_concat, hsnd]
    rcases List.eq_nil_or_concat' init with rfl | ⟨init, ⟨a, v⟩, rfl⟩
    · refine ⟨⟨Function.update m.heap b none, 0⟩, fun rounds hr => ?_, .nil _,
        fun hc => absurd hc (by simp), fun c hc => ?_⟩
      · rw [findVictimPage, if_neg h₀, hwalk rounds hr]
        simp [hb]
      · exact Function.update_of_ne (by simpa using hc) _ _
    · obtain ⟨-, ha₀, ha⟩ := Chain.seg_concat.mp hinit
      refine ⟨⟨Function.update (Function.update m.heap a (some ⟨v, 0⟩)) b none, m.fifoPgn⟩,
        fun rounds hr => ?_, Chain.IsList.cut h, fun hc => absurd hc (by simp), fun c hc => ?_⟩
      · rw [findVictimPage, if_neg h₀, hwalk rounds hr]
        simp [hb, ha₀, cut, ha]
      · have hca : c ≠ a := fun heq => hc (by simp [heq])
        have hcb : c ≠ b := fun heq => hc (by simp [heq])
        show Function.update (Function.update m.heap a _) b none c = _
        rw [Function.update_of_ne hcb, Function.update_of_ne hca]

/-- `Region.findVictimPage` is the same on the page numbers of the list. -/
theorem Shows.region {mm : Mm} (h : m.Shows nodes) (hmm : mm.fifoPgn = nodes.map Prod.snd) :
    ∃ m', (∀ rounds ≥ nodes.length,
      m.findVictimPage rounds = some (m', (SimpleOs.findVictimPage mm).2)) ∧
    m'.Shows nodes.dropLast ∧
    (SimpleOs.findVictimPage mm).1.fifoPgn = nodes.dropLast.map Prod.snd := by
  obtain ⟨m', hfind, hm', -, -⟩ := h.find
  rcases List.eq_nil_or_concat' nodes with rfl | ⟨init, ⟨b, w⟩, rfl⟩
  · rw [findVictimPage_nil hmm]
    exact ⟨m', hfind, hm', hmm⟩
  · rw [List.map_append] at hmm
    rw [findVictimPage_concat hmm]
    exact ⟨m', by simpa using hfind, hm', by simp⟩

end Calls

end PgnMem

/-! ## Runs -/

/-- A call: `malloc` returns `pnode`, or the walk may take `rounds` rounds. -/
inductive VictimCall
  | enlist (pnode pgn : Nat)
  | find (rounds : Nat)
  deriving DecidableEq, Repr

/-- The heap and the head, with the pages enlisted and the pages returned so far, oldest first. -/
structure Victims where
  mem : PgnMem
  enlisted : List Nat
  returned : List Nat

/-- An empty list, on a heap that others use. -/
def Victims.start (heap : Chain.Heap Nat) : Victims := ⟨⟨heap, 0⟩, [], []⟩

/-- One call. -/
def victimStep (s : Victims) : VictimCall → Option Victims
  | .enlist pnode pgn => do
      let mem ← s.mem.enlistPgnNode pnode pgn
      pure { s with mem := mem, enlisted := s.enlisted ++ [pgn] }
  | .find rounds => do
      let (mem, reply) ← s.mem.findVictimPage rounds
      pure { s with mem := mem, returned := s.returned ++ reply.toList }

/-- `malloc` does not fail and returns no address that is in use. -/
def Victims.Malloc (s : Victims) : VictimCall → Prop
  | .enlist pnode _ => pnode ≠ 0 ∧ s.mem.heap pnode = none
  | .find _ => True

/-- What has been returned is what was enlisted first, and the list holds the rest, newest first.
The next `find_victim_page` ends, returns the oldest page that is left and keeps the other nodes; it
returns -1, and changes nothing, exactly when everything has been returned. -/
structure Victims.Fifo (heap₀ : Chain.Heap Nat) (s : Victims) (nodes : List (Nat × Nat)) :
    Prop where
  list : s.mem.Shows nodes
  order : s.enlisted = s.returned ++ (nodes.map Prod.snd).reverse
  others : ∀ a node, heap₀ a = some node → s.mem.heap a = some node
  find : ∃ mem' reply,
    (∀ rounds ≥ nodes.length, s.mem.findVictimPage rounds = some (mem', reply)) ∧
    reply = s.enlisted[s.returned.length]? ∧ mem'.Shows nodes.dropLast ∧
    (reply = none ↔ s.returned = s.enlisted) ∧ (reply = none → mem' = s.mem)

/-- The list and the history agree, and the nodes of the list are not those of others. -/
structure Victims.Kept (heap₀ : Chain.Heap Nat) (s : Victims) (nodes : List (Nat × Nat)) :
    Prop where
  list : s.mem.Shows nodes
  order : s.enlisted = s.returned ++ (nodes.map Prod.snd).reverse
  own : ∀ a ∈ nodes.map Prod.fst, heap₀ a = none
  others : ∀ a node, heap₀ a = some node → s.mem.heap a = some node

section Runs
variable {heap₀ : Chain.Heap Nat} {s s' : Victims} {nodes : List (Nat × Nat)} {e : VictimCall}

theorem Victims.Kept.step (h : s.Kept heap₀ nodes) (hok : s.Malloc e)
    (hs : victimStep s e = some s') : ∃ nodes', s'.Kept heap₀ nodes' := by
  cases e with
  | enlist pnode pgn =>
      obtain ⟨h₀, hfresh⟩ := hok
      obtain ⟨mem', heq, hshows, hframe⟩ := h.list.enlist h₀ hfresh pgn
      rw [victimStep, heq] at hs
      obtain rfl := Option.some.inj hs
      have hnone : heap₀ pnode = none := by
        by_contra hc
        obtain ⟨node, hnode⟩ := Option.ne_none_iff_exists'.mp hc
        rw [h.others pnode node hnode] at hfresh
        exact nomatch hfresh
      refine ⟨(pnode, pgn) :: nodes, hshows, ?_, ?_, fun a node ha => ?_⟩
      · show s.enlisted ++ [pgn] = _
        rw [h.order, List.map_cons, List.reverse_cons, List.append_assoc]
      · rw [List.map_cons]
        exact List.forall_mem_cons.mpr ⟨hnone, h.own⟩
      · have hne : a ≠ pnode := fun heq => by rw [heq, hnone] at ha; exact nomatch ha
        exact (hframe a hne).trans (h.others a node ha)
  | find rounds =>
      obtain ⟨r, heq, rfl⟩ : ∃ r, s.mem.findVictimPage rounds = some r ∧
          (⟨r.1, s.enlisted, s.returned ++ r.2.toList⟩ : Victims) = s' := by
        rw [victimStep] at hs
        obtain ⟨r, hr, hs⟩ := Option.bind_eq_some_iff.mp hs
        exact ⟨r, hr, Option.some.inj hs⟩
      obtain ⟨mem₁, hfind, hshows, -, hframe⟩ := h.list.find
      obtain rfl : r = (mem₁, (nodes.map Prod.snd).getLast?) :=
        Option.some.inj ((PgnMem.findVictimPage_mono (Nat.le_max_left _ _) heq).symm.trans
          (hfind _ (Nat.le_max_right rounds nodes.length)))
      refine ⟨nodes.dropLast, hshows, ?_, fun a ha => ?_, fun a node ha => ?_⟩
      · show s.enlisted = s.returned ++ _ ++ _
        rw [h.order, List.append_assoc]
        congr 1
        rcases List.eq_nil_or_concat' nodes with rfl | ⟨init, node, rfl⟩
        · rfl
        · simp
      · rw [List.map_dropLast] at ha
        exact h.own a ((List.dropLast_sublist _).subset ha)
      · have hnot : a ∉ nodes.map Prod.fst := fun hmem => by
          rw [h.own a hmem] at ha
          exact nomatch ha
        exact (hframe a hnot).trans (h.others a node ha)

/-- What the invariant says about the next `find_victim_page`. -/
theorem Victims.Kept.fifo (h : s.Kept heap₀ nodes) : s.Fifo heap₀ nodes := by
  obtain ⟨mem', hfind, hshows, hsame, -⟩ := h.list.find
  refine ⟨h.list, h.order, h.others, mem', _, hfind, ?_, hshows, ?_, ?_⟩
  · rw [h.order, List.getElem?_append_right (Nat.le_refl _), Nat.sub_self,
      ← List.head?_eq_getElem?, List.head?_reverse]
  · rw [h.order, List.getLast?_eq_none_iff, List.map_eq_nil_iff, List.self_eq_append_right,
      List.reverse_eq_nil_iff, List.map_eq_nil_iff]
  · intro hnone
    exact hsame (List.map_eq_nil_iff.mp (List.getLast?_eq_none_iff.mp hnone))

/-- Over any interleaving of the two calls, from the empty list. -/
theorem victim_fifo {es : List VictimCall}
    (h : Lts.Run victimStep Victims.Malloc (Victims.start heap₀) es s) :
    ∃ nodes, s.Fifo heap₀ nodes := by
  have hstart : (Victims.start heap₀).Kept heap₀ [] :=
    ⟨.nil _, rfl, fun _ ha => (nomatch ha), fun _ _ ha => ha⟩
  obtain ⟨nodes, hkept⟩ := h.invariant (P := fun s => ∃ nodes, s.Kept heap₀ nodes)
    ⟨[], hstart⟩ fun _ _ _ ⟨_, hs⟩ hok hstep => hs.step hok hstep
  exact ⟨nodes, hkept.fifo⟩

/-- Two pages enlisted and one returned, the second node at the address of the first after it was
freed. -/
theorem victim_fifo_reused : ∃ s nodes,
    Lts.Run victimStep Victims.Malloc (Victims.start fun _ => none)
      [.enlist 16 5, .find 1, .enlist 16 7, .enlist 32 9] s ∧
    s.Fifo (fun _ => none) nodes ∧ s.enlisted = [5, 7, 9] ∧ s.returned = [5] := by
  obtain ⟨s, hrun, hin, hout⟩ : ∃ s, Lts.Run victimStep Victims.Malloc
      (Victims.start fun _ => none) [.enlist 16 5, .find 1, .enlist 16 7, .enlist 32 9] s ∧
      s.enlisted = [5, 7, 9] ∧ s.returned = [5] :=
    ⟨_, (((Lts.Run.nil.snoc (VictimCall.enlist 16 5) ⟨by decide, rfl⟩ rfl).snoc
      (VictimCall.find 1) trivial rfl).snoc (VictimCall.enlist 16 7) ⟨by decide, rfl⟩ rfl).snoc
      (VictimCall.enlist 32 9) ⟨by decide, rfl⟩ rfl, rfl, rfl⟩
  obtain ⟨nodes, hfifo⟩ := victim_fifo hrun
  exact ⟨s, nodes, hrun, hfifo, hin, hout⟩

end Runs

end SimpleOs
