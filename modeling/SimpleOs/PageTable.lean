/-
# `SimpleOs.PageTable` — the lazily allocated five-level page table (`mm64.c`)

The tables live in a heap of `calloc`ed blocks named by pointers; 0 is NULL.  A
directory slot holds a pointer to the next level, a last-level slot holds a
page table entry.  `get_pte` walks four directories, allocating every missing
table on the way, also when the caller only wants to read.

`calloc` is taken to succeed and to return a block nobody else holds, zeroed.

A `PageTable` carries the proof that its blocks form a tree: every pointer
stored anywhere leads to a block whose position (the list of indices on the
way to it) extends the position of the block it is stored in.  A block
therefore has one position, two pages never share a slot, and
`PageTable.entry`, the flat view from page number to slot, obeys the laws of an
array (`entry_slot`, `entry_modify`).
-/
import Mathlib.Logic.Function.Basic
import SimpleOs.Pte

namespace SimpleOs

open BitField

/-! ## From page number to indices -/

/-- The five indices `get_pd_from_address` stores through its out parameters. -/
structure PdIndex where
  pgd : Nat
  p4d : Nat
  pud : Nat
  pmd : Nat
  pt : Nat
  deriving DecidableEq, Repr

/-- `get_pd_from_address`. -/
def getPdFromAddress (addr : Addr) : PdIndex where
  pgd := ((addr &&& genmask 64 56 48) >>> 48).toNat
  p4d := ((addr &&& genmask 64 47 39) >>> 39).toNat
  pud := ((addr &&& genmask 64 38 30) >>> 30).toNat
  pmd := ((addr &&& genmask 64 29 21) >>> 21).toNat
  pt := ((addr &&& genmask 64 20 12) >>> 12).toNat

/-- `get_pd_from_pagenum`. -/
def getPdFromPagenum (pgn : Nat) : PdIndex := getPdFromAddress (BitVec.ofNat 64 pgn <<< 12)

/-- The indices are the base-512 digits of the page number. -/
theorem getPdFromPagenum_eq (pgn : Nat) :
    getPdFromPagenum pgn =
      { pgd := pgn / 2 ^ 36 % 512, p4d := pgn / 2 ^ 27 % 512, pud := pgn / 2 ^ 18 % 512,
        pmd := pgn / 2 ^ 9 % 512, pt := pgn % 512 } := by
  have haddr : (BitVec.ofNat 64 pgn <<< 12).toNat = pgn * 2 ^ 12 % 2 ^ 64 := by
    rw [BitVec.toNat_shiftLeft, BitVec.toNat_ofNat, Nat.shiftLeft_eq]
    omega
  have hfield : ∀ h l, h < 64 → ((BitVec.ofNat 64 pgn <<< 12 &&& genmask 64 h l) >>> l).toNat =
      pgn * 2 ^ 12 % 2 ^ 64 / 2 ^ l % 2 ^ (h + 1 - l) := by
    intro h l hh
    rw [← haddr]
    exact toNat_getField hh
  simp only [getPdFromPagenum, getPdFromAddress, hfield _ _ (by omega : 56 < 64),
    hfield _ _ (by omega : 47 < 64), hfield _ _ (by omega : 38 < 64),
    hfield _ _ (by omega : 29 < 64), hfield _ _ (by omega : 20 < 64), PdIndex.mk.injEq]
  refine ⟨?_, ?_, ?_, ?_, ?_⟩ <;> omega

/-- Page numbers reach the same slot iff they agree modulo 2^45. -/
theorem getPdFromPagenum_inj {m n : Nat} :
    getPdFromPagenum m = getPdFromPagenum n ↔ m % 2 ^ 45 = n % 2 ^ 45 := by
  simp only [getPdFromPagenum_eq, PdIndex.mk.injEq]
  omega

/-! ## The heap of tables -/

/-- The blocks `calloc` has returned so far: those below `brk`.  A block is used either as a
directory, whose slots are pointers, or as a last-level table, whose slots are entries. -/
structure PgHeap where
  dir : Nat → Nat → Nat
  leaf : Nat → Nat → BitVec 64
  brk : Nat

/-- `calloc(PAGING64_PGTBL_ENTRIES, sizeof(addr_t))`. -/
def PgHeap.calloc (t : PgHeap) : PgHeap × Nat :=
  ({ dir := Function.update t.dir t.brk (fun _ => 0)
     leaf := Function.update t.leaf t.brk (fun _ => 0)
     brk := t.brk + 1 }, t.brk)

/-- A fresh table hung into slot `idx` of `base`. -/
def PgHeap.hang (t : PgHeap) (base idx : Nat) : PgHeap :=
  let (t, p) := t.calloc
  { t with dir := Function.update t.dir base (Function.update (t.dir base) idx p) }

/-- One level of `get_pte`: follow slot `idx` of `base`, allocating the table it misses. -/
def PgHeap.enter (t : PgHeap) (base idx : Nat) : PgHeap × Nat :=
  let t := if t.dir base idx = 0 then t.hang base idx else t
  (t, t.dir base idx)

/-- `get_pte`: the slot's table and its index there. -/
def PgHeap.getPte (t : PgHeap) (pgd pgn : Nat) : PgHeap × Nat × Nat :=
  let ix := getPdFromPagenum pgn
  let (t, p4dBase) := t.enter pgd ix.pgd
  let (t, pudBase) := t.enter p4dBase ix.p4d
  let (t, pmdBase) := t.enter pudBase ix.pud
  let (t, ptBase) := t.enter pmdBase ix.pmd
  (t, ptBase, ix.pt)

/-- Writing through the pointer `get_pte` returned. -/
def PgHeap.setLeaf (t : PgHeap) (p i : Nat) (v : BitVec 64) : PgHeap :=
  { t with leaf := Function.update t.leaf p (Function.update (t.leaf p) i v) }

/-- The table reached from `p` by the indices `is`; NULL when one is missing. -/
def PgHeap.walk (t : PgHeap) (p : Nat) : List Nat → Nat
  | [] => p
  | i :: is => if t.dir p i = 0 then 0 else t.walk (t.dir p i) is

/-- The slot reached from `p` by `is` and then `i`; zero when a table is missing. -/
def PgHeap.view (t : PgHeap) (p : Nat) (is : List Nat) (i : Nat) : BitVec 64 :=
  if t.walk p is = 0 then 0 else t.leaf (t.walk p is) i

/-! ## The tree invariant -/

/-- `path` gives every block reachable from `root` its one position. -/
structure PgHeap.TreeBy (t : PgHeap) (root : Nat) (path : Nat → List Nat) : Prop where
  root_pos : 0 < root
  root_lt : root < t.brk
  path_root : path root = []
  link : ∀ p i, t.dir p i ≠ 0 →
    p < t.brk ∧ t.dir p i < t.brk ∧ path (t.dir p i) = path p ++ [i]

/-- `t'` is `t` with zeroed tables hung into empty slots: nothing that `t` shows changes. -/
structure PgHeap.Extends (t t' : PgHeap) : Prop where
  brk_le : t.brk ≤ t'.brk
  dir : ∀ p i, t.dir p i ≠ 0 → t'.dir p i = t.dir p i
  view : ∀ is p i, p < t.brk → t'.view p is i = t.view p is i

theorem PgHeap.Extends.refl (t : PgHeap) : t.Extends t :=
  ⟨Nat.le_refl _, fun _ _ _ => rfl, fun _ _ _ _ => rfl⟩

theorem PgHeap.Extends.trans {t t' t'' : PgHeap} (h : t.Extends t') (h' : t'.Extends t'') :
    t.Extends t'' where
  brk_le := Nat.le_trans h.brk_le h'.brk_le
  dir := fun p i hd => by rw [h'.dir p i (by rw [h.dir p i hd]; exact hd), h.dir p i hd]
  view := fun is p i hp => by
    rw [h'.view is p i (Nat.lt_of_lt_of_le hp h.brk_le), h.view is p i hp]

section Tree
variable {t : PgHeap} {root : Nat} {path : Nat → List Nat}

/-- A block's position is the list of indices that leads to it. -/
theorem PgHeap.TreeBy.path_walk (h : t.TreeBy root path) :
    ∀ (is : List Nat) (p : Nat), t.walk p is ≠ 0 → path (t.walk p is) = path p ++ is := by
  intro is
  induction is with
  | nil => intro p _; simp [PgHeap.walk]
  | cons i is ih =>
      intro p hw
      by_cases hd : t.dir p i = 0
      · simp [PgHeap.walk, hd] at hw
      · simp only [PgHeap.walk, if_neg hd] at hw ⊢
        rw [ih _ hw, (h.link p i hd).2.2, List.append_assoc, List.singleton_append]

/-! ### Hanging a fresh table -/

section Hang
variable {base idx : Nat}

theorem PgHeap.hang_dir (hb : base < t.brk) (p i : Nat) : (t.hang base idx).dir p i =
    if p = base ∧ i = idx then t.brk else if p = t.brk then 0 else t.dir p i := by
  have hne : base ≠ t.brk := Nat.ne_of_lt hb
  simp only [PgHeap.hang, PgHeap.calloc, Function.update_apply]
  by_cases hp : p = base
  · subst hp; by_cases hi : i = idx <;> simp [hi, hne]
  · simp only [hp, if_false, false_and]
    split <;> rfl

theorem PgHeap.hang_leaf (p i : Nat) :
    (t.hang base idx).leaf p i = if p = t.brk then 0 else t.leaf p i := by
  simp only [PgHeap.hang, PgHeap.calloc, Function.update_apply]
  split <;> rfl

theorem PgHeap.hang_brk : (t.hang base idx).brk = t.brk + 1 := rfl

/-- Below the fresh table there is nothing. -/
theorem PgHeap.hang_view_fresh (hb : base < t.brk) (is : List Nat) (i : Nat) :
    (t.hang base idx).view t.brk is i = 0 := by
  cases is with
  | nil => simp [PgHeap.view, PgHeap.walk, PgHeap.hang_leaf]
  | cons j is =>
      have hd : (t.hang base idx).dir t.brk j = 0 := by
        rw [PgHeap.hang_dir hb, if_neg (by omega), if_pos rfl]
      simp [PgHeap.view, PgHeap.walk, hd]

theorem PgHeap.view_cons (p i j : Nat) (is : List Nat) : t.view p (i :: is) j =
    if t.dir p i = 0 then 0 else t.view (t.dir p i) is j := by
  by_cases hd : t.dir p i = 0 <;> simp [PgHeap.view, PgHeap.walk, hd]

theorem PgHeap.TreeBy.hang_extends (h : t.TreeBy root path) (hb : base < t.brk)
    (hd : t.dir base idx = 0) : t.Extends (t.hang base idx) where
  brk_le := by rw [PgHeap.hang_brk]; omega
  dir := by
    intro p i hpi
    have hlt := (h.link p i hpi).1
    rw [PgHeap.hang_dir hb, if_neg (by rintro ⟨rfl, rfl⟩; exact hpi hd), if_neg (by omega)]
  view := by
    intro is
    induction is with
    | nil =>
        intro p i hp
        by_cases h0 : p = 0
        · simp [PgHeap.view, PgHeap.walk, h0]
        · simp [PgHeap.view, PgHeap.walk, h0, PgHeap.hang_leaf, Nat.ne_of_lt hp]
    | cons j is ih =>
        intro p i hp
        rw [PgHeap.view_cons, PgHeap.view_cons]
        by_cases hhere : p = base ∧ j = idx
        · -- the walk goes through the slot just filled, where `t` had nothing
          rw [PgHeap.hang_dir hb, if_pos hhere, PgHeap.hang_view_fresh hb, ite_self,
            hhere.1, hhere.2, if_pos hd]
        · have hdir : (t.hang base idx).dir p j = t.dir p j := by
            rw [PgHeap.hang_dir hb, if_neg hhere, if_neg (Nat.ne_of_lt hp)]
          rw [hdir]
          by_cases hz : t.dir p j = 0
          · rw [if_pos hz, if_pos hz]
          · rw [if_neg hz, if_neg hz, ih _ i (h.link p j hz).2.1]

theorem PgHeap.TreeBy.hang_tree (h : t.TreeBy root path) (hb : base < t.brk) :
    (t.hang base idx).TreeBy root (Function.update path t.brk (path base ++ [idx])) where
  root_pos := h.root_pos
  root_lt := by rw [PgHeap.hang_brk]; exact Nat.lt_succ_of_lt h.root_lt
  path_root := by rw [Function.update_of_ne (Nat.ne_of_lt h.root_lt), h.path_root]
  link := by
    intro p i hpi
    rw [PgHeap.hang_brk]
    rw [PgHeap.hang_dir hb] at hpi ⊢
    by_cases hp : p = base ∧ i = idx
    · obtain ⟨rfl, rfl⟩ := hp
      rw [if_pos ⟨rfl, rfl⟩, Function.update_self, Function.update_of_ne (Nat.ne_of_lt hb)]
      exact ⟨by omega, by omega, rfl⟩
    · rw [if_neg hp] at hpi ⊢
      have hpb : p ≠ t.brk := by rintro rfl; simp at hpi
      rw [if_neg hpb] at hpi ⊢
      obtain ⟨h1, h2, h3⟩ := h.link p i hpi
      rw [Function.update_of_ne (Nat.ne_of_lt h2), Function.update_of_ne hpb]
      exact ⟨by omega, by omega, h3⟩

end Hang

/-! ### One level and all four levels of `get_pte` -/

/-- One level lands one index deeper, in a tree that extends the old one. -/
theorem PgHeap.TreeBy.enter (h : t.TreeBy root path) {base : Nat} (hb : base < t.brk) (idx : Nat) :
    ∃ path', (t.enter base idx).1.TreeBy root path' ∧ t.Extends (t.enter base idx).1 ∧
      (t.enter base idx).1.dir base idx = (t.enter base idx).2 ∧ (t.enter base idx).2 ≠ 0 ∧
      (t.enter base idx).2 < (t.enter base idx).1.brk := by
  by_cases hd : t.dir base idx = 0
  · have hdir : (t.hang base idx).dir base idx = t.brk := by
      rw [PgHeap.hang_dir hb, if_pos ⟨rfl, rfl⟩]
    have hpos := h.root_pos
    have hlt := h.root_lt
    simp only [PgHeap.enter, if_pos hd, hdir, PgHeap.hang_brk]
    exact ⟨_, h.hang_tree hb, h.hang_extends hb hd, trivial, by omega, by omega⟩
  · simp only [PgHeap.enter, if_neg hd]
    exact ⟨path, h, .refl t, trivial, hd, (h.link base idx hd).2.1⟩

/-- The directories on the way to a page. -/
def PdIndex.dirs (ix : PdIndex) : List Nat := [ix.pgd, ix.p4d, ix.pud, ix.pmd]

/-- `get_pte` keeps the tree, changes nothing one could see, and returns the slot's table. -/
theorem PgHeap.TreeBy.getPte (h : t.TreeBy root path) (pgn : Nat) :
    ∃ path', (t.getPte root pgn).1.TreeBy root path' ∧ t.Extends (t.getPte root pgn).1 ∧
      (t.getPte root pgn).1.walk root (getPdFromPagenum pgn).dirs = (t.getPte root pgn).2.1 ∧
      (t.getPte root pgn).2.1 ≠ 0 ∧ (t.getPte root pgn).2.2 = (getPdFromPagenum pgn).pt := by
  obtain ⟨path₁, h₁, e₁, d₁, n₁, l₁⟩ := h.enter h.root_lt (getPdFromPagenum pgn).pgd
  obtain ⟨path₂, h₂, e₂, d₂, n₂, l₂⟩ := h₁.enter l₁ (getPdFromPagenum pgn).p4d
  obtain ⟨path₃, h₃, e₃, d₃, n₃, l₃⟩ := h₂.enter l₂ (getPdFromPagenum pgn).pud
  obtain ⟨path₄, h₄, e₄, d₄, n₄, _⟩ := h₃.enter l₃ (getPdFromPagenum pgn).pmd
  refine ⟨path₄, h₄, ((e₁.trans e₂).trans e₃).trans e₄, ?_, n₄, rfl⟩
  -- each link laid down at one level is still there after the levels below it
  have c₁ := ((e₂.trans e₃).trans e₄).dir root _ (by rw [d₁]; exact n₁)
  have c₂ := (e₃.trans e₄).dir _ _ (by rw [d₂]; exact n₂)
  have c₃ := e₄.dir _ _ (by rw [d₃]; exact n₃)
  rw [d₁] at c₁
  rw [d₂] at c₂
  rw [d₃] at c₃
  simp only [PdIndex.dirs, PgHeap.getPte, PgHeap.walk]
  rw [c₁, if_neg n₁, c₂, if_neg n₂, c₃, if_neg n₃, d₄, if_neg n₄]

end Tree

/-! ## The page table of a process -/

/-- `mm->pgd` with the tables below it. -/
structure PageTable where
  heap : PgHeap
  pgd : Nat
  tree : ∃ path, heap.TreeBy pgd path

namespace PageTable

/-- The page table `init_mm` makes: one zeroed directory. -/
def init : PageTable where
  heap := { dir := fun _ _ => 0, leaf := fun _ _ => 0, brk := 2 }
  pgd := 1
  tree := ⟨fun _ => [], by decide, by decide, rfl, fun _ _ h => absurd rfl h⟩

/-- The slot of page `pgn`, as a flat array of page numbers shows it. -/
def entry (pt : PageTable) (pgn : Nat) : BitVec 64 :=
  pt.heap.view pt.pgd (getPdFromPagenum pgn).dirs (getPdFromPagenum pgn).pt

/-- `get_pte`. -/
def getPte (pt : PageTable) (pgn : Nat) : PageTable × Nat × Nat :=
  ({ heap := (pt.heap.getPte pt.pgd pgn).1
     pgd := pt.pgd
     tree := let ⟨_, h⟩ := pt.tree; let ⟨path', h', _⟩ := h.getPte pgn; ⟨path', h'⟩ },
   (pt.heap.getPte pt.pgd pgn).2)

/-- Reading through `get_pte`'s pointer. -/
def load (pt : PageTable) (slot : Nat × Nat) : BitVec 64 := pt.heap.leaf slot.1 slot.2

/-- Writing through `get_pte`'s pointer. -/
def store (pt : PageTable) (slot : Nat × Nat) (v : BitVec 64) : PageTable where
  heap := pt.heap.setLeaf slot.1 slot.2 v
  pgd := pt.pgd
  tree := let ⟨path, h⟩ := pt.tree; ⟨path, h.root_pos, h.root_lt, h.path_root, h.link⟩

/-- The slot of page `pgn` read, changed by `f` and written back. -/
def modify (pt : PageTable) (pgn : Nat) (f : BitVec 64 → BitVec 64) : PageTable :=
  let (pt, slot) := pt.getPte pgn
  pt.store slot (f (pt.load slot))

/-- Two page numbers with one slot: they agree in the 45 bits the indices are taken from. -/
def SamePage (m n : Nat) : Prop := m % 2 ^ 45 = n % 2 ^ 45

instance (m n : Nat) : Decidable (SamePage m n) := inferInstanceAs (Decidable (_ = _))

theorem SamePage.refl (m : Nat) : SamePage m m := Eq.refl _

theorem SamePage.eq_of_lt {m n : Nat} (h : SamePage m n) (hm : m < 2 ^ 45) (hn : n < 2 ^ 45) :
    m = n := by
  unfold SamePage at h
  rwa [Nat.mod_eq_of_lt hm, Nat.mod_eq_of_lt hn] at h

@[simp] theorem entry_init (pgn : Nat) : init.entry pgn = 0 := rfl

theorem entry_congr {pt : PageTable} {m n : Nat} (h : SamePage m n) : pt.entry m = pt.entry n := by
  rw [entry, entry, getPdFromPagenum_inj.mpr h]

/-- Creating the missing tables shows nowhere. -/
@[simp] theorem entry_getPte (pt : PageTable) (m pgn : Nat) :
    (pt.getPte pgn).1.entry m = pt.entry m := by
  obtain ⟨path, h⟩ := pt.tree
  obtain ⟨_, _, he, _⟩ := h.getPte pgn
  exact he.view _ _ _ h.root_lt

/-- The pointer `get_pte` returns points at the page's slot. -/
@[simp] theorem load_getPte (pt : PageTable) (pgn : Nat) :
    (pt.getPte pgn).1.load (pt.getPte pgn).2 = pt.entry pgn := by
  rw [← entry_getPte pt pgn pgn]
  obtain ⟨path, h⟩ := pt.tree
  obtain ⟨_, _, _, hw, hn, hi⟩ := h.getPte pgn
  rw [entry, PgHeap.view, load]
  show _ = if (pt.heap.getPte pt.pgd pgn).1.walk pt.pgd _ = 0 then _ else
    (pt.heap.getPte pt.pgd pgn).1.leaf ((pt.heap.getPte pt.pgd pgn).1.walk pt.pgd _) _
  rw [hw, if_neg hn, ← hi]
  rfl

/-- Writing through a pointer leaves the directories alone. -/
theorem walk_store (pt : PageTable) (slot : Nat × Nat) (v : BitVec 64) :
    ∀ (is : List Nat) (p : Nat), (pt.store slot v).heap.walk p is = pt.heap.walk p is := by
  intro is
  induction is with
  | nil => intro _; rfl
  | cons i is ih => intro p; simp only [PgHeap.walk, ih]; rfl

/-- The slot of page `m` is the one `get_pte` returned for `pgn` iff they are one page. -/
theorem slot_getPte (pt : PageTable) (m pgn : Nat) :
    ((pt.getPte pgn).1.heap.walk pt.pgd (getPdFromPagenum m).dirs = (pt.getPte pgn).2.1 ∧
      (getPdFromPagenum m).pt = (pt.getPte pgn).2.2) ↔ SamePage m pgn := by
  obtain ⟨path, h⟩ := pt.tree
  obtain ⟨path', h', _, hw, hn, hi⟩ := h.getPte pgn
  constructor
  · rintro ⟨hwalk, hidx⟩
    have hwalk' : (pt.heap.getPte pt.pgd pgn).1.walk pt.pgd (getPdFromPagenum m).dirs =
        (pt.heap.getPte pt.pgd pgn).2.1 := hwalk
    -- the block has one position, so the two ways to it are the same indices
    have hm := h'.path_walk (getPdFromPagenum m).dirs pt.pgd (by rw [hwalk']; exact hn)
    have hp := h'.path_walk (getPdFromPagenum pgn).dirs pt.pgd (by rw [hw]; exact hn)
    rw [hwalk', h'.path_root, List.nil_append] at hm
    rw [hw, h'.path_root, List.nil_append] at hp
    have hdirs : (getPdFromPagenum m).dirs = (getPdFromPagenum pgn).dirs := hm.symm.trans hp
    have hpt : (getPdFromPagenum m).pt = (getPdFromPagenum pgn).pt := hidx.trans hi
    simp only [PdIndex.dirs, List.cons.injEq, and_true] at hdirs
    refine getPdFromPagenum_inj.mp ?_
    cases hm' : getPdFromPagenum m
    cases hp' : getPdFromPagenum pgn
    rw [hm', hp'] at hdirs hpt
    obtain ⟨rfl, rfl, rfl, rfl⟩ := hdirs
    obtain rfl := hpt
    rfl
  · intro hs
    rw [getPdFromPagenum_inj.mpr hs]
    exact ⟨hw, hi.symm⟩

/-- Writing a page's slot changes that page and no other. -/
theorem entry_modify (pt : PageTable) (m pgn : Nat) (f : BitVec 64 → BitVec 64) :
    (pt.modify pgn f).entry m = if SamePage m pgn then f (pt.entry pgn) else pt.entry m := by
  have hn : (pt.getPte pgn).2.1 ≠ 0 := by
    obtain ⟨path, h⟩ := pt.tree
    obtain ⟨_, _, _, _, hn, _⟩ := h.getPte pgn
    exact hn
  show ((pt.getPte pgn).1.store (pt.getPte pgn).2
    (f ((pt.getPte pgn).1.load (pt.getPte pgn).2))).entry m = _
  rw [load_getPte, ← entry_getPte pt m pgn]
  generalize f (pt.entry pgn) = v
  have hleaf : ∀ p i, ((pt.getPte pgn).1.store (pt.getPte pgn).2 v).heap.leaf p i =
      if p = (pt.getPte pgn).2.1 ∧ i = (pt.getPte pgn).2.2 then v
      else (pt.getPte pgn).1.heap.leaf p i := by
    intro p i
    simp only [store, PgHeap.setLeaf, Function.update_apply]
    by_cases hp : p = (pt.getPte pgn).2.1
    · by_cases hi : i = (pt.getPte pgn).2.2 <;> simp [hp, hi]
    · simp [hp]
  rw [entry, entry, PgHeap.view, PgHeap.view, walk_store, hleaf]
  by_cases hs : SamePage m pgn
  · obtain ⟨hw, hi⟩ := (slot_getPte pt m pgn).mpr hs
    have hw' : (pt.getPte pgn).1.heap.walk ((pt.getPte pgn).1.store (pt.getPte pgn).2 v).pgd
        (getPdFromPagenum m).dirs = (pt.getPte pgn).2.1 := hw
    rw [if_pos hs, hw', if_neg hn, if_pos ⟨rfl, hi⟩]
  · have hns : ¬ ((pt.getPte pgn).1.heap.walk ((pt.getPte pgn).1.store (pt.getPte pgn).2 v).pgd
        (getPdFromPagenum m).dirs = (pt.getPte pgn).2.1 ∧
        (getPdFromPagenum m).pt = (pt.getPte pgn).2.2) :=
      fun h => hs ((slot_getPte pt m pgn).mp h)
    rw [if_neg hs, if_neg hns]
    rfl

end PageTable

end SimpleOs
