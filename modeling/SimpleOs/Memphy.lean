/-
# `SimpleOs.Memphy` — the simulated storage devices (`mm-memphy.c`)

A device is a byte array, a geometry and a free-frame list.  `storage` is the
`malloc`ed array; `cap` is the number of bytes the allocation has, which is
what decides whether an access is defined, since the code itself checks no
address.  `maxsz` is the same size after its conversion to `int`.

Nodes of the free list are the frame numbers they carry.  A list built by
`MEMPHY_format` need not end in NULL: the first node's `fp_next` is only
written when a second node is appended, so a one-frame device keeps whatever
`malloc` left there.  `closed` records whether the last link is NULL; walking
past the end of an open list follows a wild pointer.

`free_fp_list` and `used_fp_list` are the only list heads; `mp == NULL` is not
represented, every caller passes one of the devices `main` creates.
-/
import Mathlib.Data.Nat.Basic
import Mathlib.Data.List.Induction
import SimpleOs.Basic

namespace SimpleOs

/-- A chain of `framephy_struct` nodes, and whether its last `fp_next` is NULL. -/
structure FpList where
  fpns : List Nat
  closed : Bool
  deriving DecidableEq, Repr

/-- `struct memphy_struct`. -/
structure Memphy where
  storage : Nat → Byte
  cap : Nat
  maxsz : Int
  rdmflg : Bool
  cursor : Int
  freeFpList : FpList
  usedFpList : List Nat

/-- How many frames `MEMPHY_format` makes of a device: `maxsz / PAGING_PAGESZ` in `int`. -/
def Memphy.numfp (mp : Memphy) : Nat := (mp.maxsz.tdiv pagingPagesz).toNat

/-! ## Access -/

/-- `MEMPHY_mv_csr`: the cursor is stepped `offset` times, but at most `maxsz` times. -/
def memphyMvCsr (mp : Memphy) (offset : Nat) : Memphy :=
  { mp with cursor := Nat.repeat (fun c => (c + 1).tmod mp.maxsz) (min offset mp.maxsz.toNat) 0 }

/-- `MEMPHY_seq_read`.  The last component is `*value`, which a refusal leaves alone. -/
def memphySeqRead (mp : Memphy) (addr : Nat) (value : Byte) : Except Ub (Memphy × Int × Byte) :=
  if !mp.rdmflg then .ok (mp, -1, value)
  else if addr < mp.cap then .ok (memphyMvCsr mp addr, 0, mp.storage addr)
  else .error .storageBounds

/-- `MEMPHY_read`. -/
def memphyRead (mp : Memphy) (addr : Nat) (value : Byte) : Except Ub (Memphy × Int × Byte) :=
  if mp.rdmflg then
    if addr < mp.cap then .ok (mp, 0, mp.storage addr) else .error .storageBounds
  else memphySeqRead mp addr value

/-- `mp->storage[addr] = value`. -/
def Memphy.store (mp : Memphy) (addr : Nat) (value : Byte) : Memphy :=
  { mp with storage := fun a => if a = addr then value else mp.storage a }

/-- `MEMPHY_seq_write`. -/
def memphySeqWrite (mp : Memphy) (addr : Nat) (value : Byte) : Except Ub (Memphy × Int) :=
  if !mp.rdmflg then .ok (mp, -1)
  else if addr < mp.cap then .ok ((memphyMvCsr mp addr).store addr value, 0)
  else .error .storageBounds

/-- `MEMPHY_write`. -/
def memphyWrite (mp : Memphy) (addr : Nat) (data : Byte) : Except Ub (Memphy × Int) :=
  if mp.rdmflg then
    if addr < mp.cap then .ok (mp.store addr data, 0) else .error .storageBounds
  else memphySeqWrite mp addr data

/-! ## The frame allocator -/

/-- The loop of `MEMPHY_format`: node 0, then one node appended for each `iter` from 1 to
`numfp - 1`.  `junk` says whether node 0's uninitialised `fp_next` happens to be NULL. -/
def formatList (numfp : Nat) (junk : Bool) : FpList :=
  (List.range' 1 (numfp - 1)).foldl
    (fun l iter => { fpns := l.fpns ++ [iter], closed := true }) { fpns := [0], closed := junk }

/-- `MEMPHY_format`. -/
def memphyFormat (mp : Memphy) (pagesz : Int) (junk : Bool) : Memphy × Int :=
  let numfp := mp.maxsz.tdiv pagesz
  if numfp ≤ 0 then (mp, -1)
  else ({ mp with freeFpList := formatList numfp.toNat junk }, 0)

/-- `MEMPHY_get_freefp`; `none` is the status -1. -/
def memphyGetFreefp (mp : Memphy) : Except Ub (Memphy × Option Nat) :=
  match mp.freeFpList.fpns with
  | [] => if mp.freeFpList.closed then .ok (mp, none) else .error .wildPointer
  | fpn :: rest =>
      .ok ({ mp with
        freeFpList := { mp.freeFpList with fpns := rest }
        usedFpList := fpn :: mp.usedFpList }, some fpn)

/-- `MEMPHY_put_freefp`. -/
def memphyPutFreefp (mp : Memphy) (fpn : Nat) : Memphy :=
  { mp with freeFpList := { mp.freeFpList with fpns := fpn :: mp.freeFpList.fpns } }

/-- `init_memphy`, `malloc` having returned `max_size` bytes. -/
def initMemphy (maxSize : Addr) (randomflg : Bool) (junk : Bool) : Memphy :=
  let mp : Memphy := {
    storage := fun _ => 0
    cap := maxSize.toNat
    maxsz := (maxSize.setWidth 32).toInt
    rdmflg := false
    cursor := 0
    freeFpList := { fpns := [], closed := true }
    usedFpList := [] }
  { (memphyFormat mp pagingPagesz junk).1 with rdmflg := randomflg }

/-! ## The list `MEMPHY_format` builds -/

theorem formatList_succ (n : Nat) (junk : Bool) :
    formatList (n + 2) junk =
      { fpns := (formatList (n + 1) junk).fpns ++ [n + 1], closed := true } := by
  simp only [formatList, Nat.add_sub_cancel]
  rw [show n + 2 - 1 = n + 1 from rfl, List.range'_concat, List.foldl_append]
  simp [Nat.add_comm]

theorem formatList_fpns (n : Nat) (junk : Bool) :
    (formatList (n + 1) junk).fpns = List.range (n + 1) := by
  induction n with
  | zero => rfl
  | succ n ih => rw [formatList_succ, ih, List.range_succ (n := n + 1)]

/-- Only a one-frame list can stay open. -/
theorem formatList_closed {n : Nat} {junk : Bool} (h : n ≠ 1 ∨ junk = true) (hn : 0 < n) :
    (formatList n junk).closed = true := by
  match n, hn, h with
  | 1, _, h => simpa [formatList] using h
  | n + 2, _, _ => rw [formatList_succ]

/-! ## A freshly initialised device -/

section Init
variable (maxSize : Addr) (randomflg junk : Bool)

@[simp] theorem initMemphy_rdmflg : (initMemphy maxSize randomflg junk).rdmflg = randomflg := rfl

@[simp] theorem initMemphy_storage (a : Nat) :
    (initMemphy maxSize randomflg junk).storage a = 0 := by
  simp only [initMemphy, memphyFormat]
  split <;> rfl

@[simp] theorem initMemphy_cap : (initMemphy maxSize randomflg junk).cap = maxSize.toNat := by
  simp only [initMemphy, memphyFormat]
  split <;> rfl

@[simp] theorem initMemphy_maxsz :
    (initMemphy maxSize randomflg junk).maxsz = (maxSize.setWidth 32).toInt := by
  simp only [initMemphy, memphyFormat]
  split <;> rfl

/-- Every frame starts on the free list, in order. -/
theorem initMemphy_fpns :
    (initMemphy maxSize randomflg junk).freeFpList.fpns =
      List.range (initMemphy maxSize randomflg junk).numfp := by
  simp only [Memphy.numfp, initMemphy_maxsz]
  simp only [initMemphy, memphyFormat]
  split
  next h => rw [Int.toNat_of_nonpos h]; rfl
  next h =>
    obtain ⟨n, hn⟩ : ∃ n, ((maxSize.setWidth 32).toInt.tdiv pagingPagesz).toNat = n + 1 :=
      ⟨_, (Nat.succ_pred_eq_of_pos (by omega)).symm⟩
    rw [hn]
    exact formatList_fpns n junk

theorem initMemphy_closed
    (h : (initMemphy maxSize randomflg junk).numfp ≠ 1 ∨ junk = true) :
    (initMemphy maxSize randomflg junk).freeFpList.closed = true := by
  simp only [Memphy.numfp, initMemphy_maxsz] at h
  simp only [initMemphy, memphyFormat]
  split
  next => rfl
  next hpos => exact formatList_closed h (by omega)

end Init

/-! ## Random access devices

`main` creates every device with `rdmflag = 1`; on these, reads and writes are
plain array accesses. -/

/-- What `init_memphy` guarantees of a random access device, and every access keeps. -/
structure Memphy.Random (mp : Memphy) : Prop where
  rdm : mp.rdmflg = true
  maxsz_le : mp.maxsz ≤ mp.cap
  maxsz_lt : mp.maxsz < 2 ^ 31

theorem initMemphy_random (maxSize : Addr) (junk : Bool) :
    (initMemphy maxSize true junk).Random where
  rdm := rfl
  maxsz_le := by
    rw [initMemphy_maxsz, initMemphy_cap]
    have h : (maxSize.setWidth 32).toNat = maxSize.toNat % 2 ^ 32 := BitVec.toNat_setWidth ..
    rw [BitVec.toInt_eq_toNat_cond]
    split <;> omega
  maxsz_lt := by
    rw [initMemphy_maxsz]
    exact BitVec.toInt_lt (x := maxSize.setWidth 32)

/-- A byte of a frame below the frame count is inside the device. -/
theorem Memphy.numfp_bound (mp : Memphy) {f o : Nat} (hf : f < mp.numfp) (ho : o < 256) :
    (f * 256 + o : Int) < mp.maxsz := by
  simp only [Memphy.numfp, pagingPagesz] at hf
  by_cases hpos : 0 ≤ mp.maxsz
  · rw [Int.tdiv_eq_ediv_of_nonneg hpos] at hf
    omega
  · have hneg : 0 ≤ (-mp.maxsz).tdiv 256 := Int.tdiv_nonneg (by omega) (by omega)
    rw [Int.neg_tdiv] at hneg
    have hf' : f < (mp.maxsz.tdiv 256).toNat := hf
    omega

theorem Memphy.Random.inStorage {mp : Memphy} (h : mp.Random) {f o : Nat} (hf : f < mp.numfp)
    (ho : o < 256) : f * 256 + o < mp.cap := by
  have h1 := Memphy.numfp_bound mp hf ho
  have h2 := h.maxsz_le
  omega

/-- The frames of a device of at most `n` frames are below `n`. -/
theorem initMemphy_fits {maxSize : Addr} {junk : Bool} {f n : Nat}
    (hf : f ∈ (initMemphy maxSize true junk).freeFpList.fpns) (hn : maxSize.toNat ≤ n * 256) :
    f < n := by
  rw [initMemphy_fpns, List.mem_range] at hf
  have hin := (initMemphy_random maxSize junk).inStorage hf (by decide : 0 < 256)
  rw [initMemphy_cap] at hin
  omega

theorem Memphy.Random.numfp_lt {mp : Memphy} (h : mp.Random) : mp.numfp < 2 ^ 23 := by
  by_contra hge
  have h1 := Memphy.numfp_bound mp (f := 2 ^ 23 - 1) (o := 255) (by omega) (by omega)
  have h2 := h.maxsz_lt
  omega

section Access
variable {mp : Memphy} {addr : Nat} {value data : Byte}

theorem memphyRead_random (h : mp.rdmflg = true) :
    memphyRead mp addr value =
      if addr < mp.cap then .ok (mp, 0, mp.storage addr) else .error .storageBounds := by
  simp [memphyRead, h]

theorem memphyWrite_random (h : mp.rdmflg = true) :
    memphyWrite mp addr data =
      if addr < mp.cap then .ok (mp.store addr data, 0) else .error .storageBounds := by
  simp [memphyWrite, h]

theorem Memphy.Random.store (h : mp.Random) : (mp.store addr data).Random :=
  ⟨h.rdm, h.maxsz_le, h.maxsz_lt⟩

@[simp] theorem Memphy.store_freeFpList : (mp.store addr data).freeFpList = mp.freeFpList := rfl

@[simp] theorem Memphy.store_numfp : (mp.store addr data).numfp = mp.numfp := rfl

end Access

/-! ## What `MEMPHY_get_freefp` can do -/

/-- `mp` with the head of its free list moved to the used list. -/
def Memphy.take (mp : Memphy) (fpn : Nat) (rest : List Nat) : Memphy :=
  { mp with
    freeFpList := { mp.freeFpList with fpns := rest }
    usedFpList := fpn :: mp.usedFpList }

section Take
variable (mp : Memphy) (fpn : Nat) (rest : List Nat)

@[simp] theorem Memphy.take_storage : (mp.take fpn rest).storage = mp.storage := rfl

@[simp] theorem Memphy.take_cap : (mp.take fpn rest).cap = mp.cap := rfl

@[simp] theorem Memphy.take_rdmflg : (mp.take fpn rest).rdmflg = mp.rdmflg := rfl

@[simp] theorem Memphy.take_fpns : (mp.take fpn rest).freeFpList.fpns = rest := rfl

@[simp] theorem Memphy.take_closed :
    (mp.take fpn rest).freeFpList.closed = mp.freeFpList.closed := rfl

@[simp] theorem Memphy.take_numfp : (mp.take fpn rest).numfp = mp.numfp := rfl

end Take

theorem Memphy.Random.take {mp : Memphy} (h : mp.Random) (fpn : Nat) (rest : List Nat) :
    (mp.take fpn rest).Random :=
  ⟨h.rdm, h.maxsz_le, h.maxsz_lt⟩

theorem memphyGetFreefp_nil {mp : Memphy} (h : mp.freeFpList.fpns = [])
    (hc : mp.freeFpList.closed = true) : memphyGetFreefp mp = .ok (mp, none) := by
  simp [memphyGetFreefp, h, hc]

theorem memphyGetFreefp_cons {mp : Memphy} {fpn : Nat} {rest : List Nat}
    (h : mp.freeFpList.fpns = fpn :: rest) :
    memphyGetFreefp mp = .ok (mp.take fpn rest, some fpn) := by
  simp [memphyGetFreefp, h, Memphy.take]


/-! ## Copying a page -/

/-- `__swap_cp_page`: 256 byte copies; the status of each read and write is ignored, so `junk`
is what the uninitialised local `data` holds when a read is refused. -/
def swapCpPage (mpsrc : Memphy) (srcfpn : Nat) (mpdst : Memphy) (dstfpn : Nat) (junk : Byte) :
    Except Ub (Memphy × Memphy) :=
  (List.range pagingPagesz).foldlM (fun (d : Memphy × Memphy) cellidx => do
    let (mpsrc, _, data) ← memphyRead d.1 (srcfpn * pagingPagesz + cellidx) junk
    let (mpdst, _) ← memphyWrite d.2 (dstfpn * pagingPagesz + cellidx) data
    pure (mpsrc, mpdst)) (mpsrc, mpdst)

/-- `mpdst` with the first `n` cells of frame `dstfpn` copied from `mpsrc`'s frame `srcfpn`. -/
def Memphy.copyCells (mpdst mpsrc : Memphy) (srcfpn dstfpn n : Nat) : Memphy :=
  { mpdst with storage := fun a =>
      if dstfpn * 256 ≤ a ∧ a < dstfpn * 256 + n then
        mpsrc.storage (srcfpn * 256 + (a - dstfpn * 256))
      else mpdst.storage a }

section Copy
variable {mpsrc mpdst : Memphy} {srcfpn dstfpn : Nat} {junk : Byte}

theorem copyCells_zero : mpdst.copyCells mpsrc srcfpn dstfpn 0 = mpdst := by
  have hstorage : (mpdst.copyCells mpsrc srcfpn dstfpn 0).storage = mpdst.storage :=
    funext fun a => if_neg (by omega)
  show { mpdst with storage := (mpdst.copyCells mpsrc srcfpn dstfpn 0).storage } = mpdst
  rw [hstorage]

/-- One more cell. -/
theorem copyCells_succ (n : Nat) :
    (mpdst.copyCells mpsrc srcfpn dstfpn n).store (dstfpn * 256 + n)
        (mpsrc.storage (srcfpn * 256 + n)) =
      mpdst.copyCells mpsrc srcfpn dstfpn (n + 1) := by
  simp only [Memphy.copyCells, Memphy.store]
  congr 1
  funext a
  by_cases h1 : a = dstfpn * 256 + n
  · subst h1
    rw [if_pos rfl, if_pos (by omega)]
    congr 1
    omega
  · rw [if_neg h1]
    by_cases h2 : dstfpn * 256 ≤ a ∧ a < dstfpn * 256 + n
    · rw [if_pos h2, if_pos (by omega)]
    · rw [if_neg h2, if_neg (by omega)]

/-- The loop after `n` cells, on random access devices. -/
theorem swapCpPage_loop (srcfpn dstfpn : Nat) (junk : Byte) (hs : mpsrc.rdmflg = true)
    (hd : mpdst.rdmflg = true) (n : Nat) :
    (List.range n).foldlM (fun (d : Memphy × Memphy) cellidx => do
      let (mpsrc, _, data) ← memphyRead d.1 (srcfpn * pagingPagesz + cellidx) junk
      let (mpdst, _) ← memphyWrite d.2 (dstfpn * pagingPagesz + cellidx) data
      pure (mpsrc, mpdst)) (mpsrc, mpdst) =
    if n = 0 ∨ (srcfpn * 256 + n ≤ mpsrc.cap ∧ dstfpn * 256 + n ≤ mpdst.cap) then
      Except.ok (mpsrc, mpdst.copyCells mpsrc srcfpn dstfpn n)
    else .error .storageBounds := by
  induction n with
  | zero => rw [copyCells_zero]; rfl
  | succ n ih =>
      rw [List.range_succ, List.foldlM_append, ih]
      have hd' : (mpdst.copyCells mpsrc srcfpn dstfpn n).rdmflg = true := hd
      have hcap : (mpdst.copyCells mpsrc srcfpn dstfpn n).cap = mpdst.cap := rfl
      by_cases hin : srcfpn * 256 + (n + 1) ≤ mpsrc.cap ∧ dstfpn * 256 + (n + 1) ≤ mpdst.cap
      · rw [if_pos (by omega), if_pos (Or.inr hin)]
        simp only [bind, Except.bind, List.foldlM_cons, List.foldlM_nil, pagingPagesz,
          memphyRead_random hs, memphyWrite_random hd', hcap]
        rw [if_pos (by omega)]
        simp only
        rw [if_pos (by omega)]
        simp only [copyCells_succ]
        rfl
      · rw [if_neg (by omega : ¬ (n + 1 = 0 ∨ _))]
        by_cases hn : n = 0 ∨ (srcfpn * 256 + n ≤ mpsrc.cap ∧ dstfpn * 256 + n ≤ mpdst.cap)
        · rw [if_pos hn]
          simp only [bind, Except.bind, List.foldlM_cons, pagingPagesz,
            memphyRead_random hs, memphyWrite_random hd', hcap]
          by_cases hsrc : srcfpn * 256 + n < mpsrc.cap
          · rw [if_pos hsrc]
            simp only
            rw [if_neg (by omega)]
          · rw [if_neg hsrc]
        · rw [if_neg hn]
          rfl

/-- On random access devices `__swap_cp_page` copies the page, or runs off a device. -/
theorem swapCpPage_random (hs : mpsrc.rdmflg = true) (hd : mpdst.rdmflg = true) :
    swapCpPage mpsrc srcfpn mpdst dstfpn junk =
      if srcfpn * 256 + 256 ≤ mpsrc.cap ∧ dstfpn * 256 + 256 ≤ mpdst.cap then
        .ok (mpsrc, mpdst.copyCells mpsrc srcfpn dstfpn 256)
      else .error .storageBounds := by
  have h := swapCpPage_loop srcfpn dstfpn junk hs hd 256
  rw [if_congr (by omega :
    (256 = 0 ∨ _) ↔ (srcfpn * 256 + 256 ≤ mpsrc.cap ∧ dstfpn * 256 + 256 ≤ mpdst.cap)) rfl rfl] at h
  exact h

theorem Memphy.Random.copyCells (h : mpdst.Random) (n : Nat) :
    (mpdst.copyCells mpsrc srcfpn dstfpn n).Random :=
  ⟨h.rdm, h.maxsz_le, h.maxsz_lt⟩

/-- A copied page holds the source page. -/
theorem copyCells_same {o : Nat} (ho : o < 256) :
    (mpdst.copyCells mpsrc srcfpn dstfpn 256).storage (dstfpn * 256 + o) =
      mpsrc.storage (srcfpn * 256 + o) := by
  simp only [Memphy.copyCells]
  rw [if_pos (by omega)]
  congr 1
  omega

/-- Other frames are left alone. -/
theorem copyCells_other {f o : Nat} (ho : o < 256) (hf : f ≠ dstfpn) :
    (mpdst.copyCells mpsrc srcfpn dstfpn 256).storage (f * 256 + o) =
      mpdst.storage (f * 256 + o) := by
  simp only [Memphy.copyCells]
  rw [if_neg (by omega)]

end Copy

end SimpleOs
