/-
# `SimpleOs.Undefined` — which undefined behaviour a call can run into

One lemma per call, over the error `e` that is to be avoided.  The frame
allocator and the library follow pointers, the devices index their storage by
an address nobody checks, and the library indexes the symbol table by an id: a
call avoids every other error, and it avoids `symtblBounds` when the ids it is
given are those of the table.
-/
import SimpleOs.Lib.Related
import SimpleOs.Machine

namespace SimpleOs

open Relational

/-- An id of the symbol table. -/
def InTable (rgid : Int) : Prop := 0 ≤ rgid ∧ rgid < pagingMaxSymtblSz

section Avoid
variable {e : Ub} {k : Krnl} {p : Pid} {mm : Mm} {junk : Byte}

/-! ## The devices -/

theorem memphyGetFreefp_avoids (hp : Ub.wildPointer ≠ e) (mp : Memphy) :
    Avoids e (memphyGetFreefp mp) := by
  rw [memphyGetFreefp]
  split
  · split
    · exact .ok _ _
    · exact .error hp
  · exact .ok _ _

theorem memphyRead_avoids (hs : Ub.storageBounds ≠ e) (mp : Memphy) (addr : Nat) (value : Byte) :
    Avoids e (memphyRead mp addr value) := by
  rw [memphyRead]
  split
  · split
    · exact .ok _ _
    · exact .error hs
  · rw [memphySeqRead]
    split
    · exact .ok _ _
    · split
      · exact .ok _ _
      · exact .error hs

theorem memphyWrite_avoids (hs : Ub.storageBounds ≠ e) (mp : Memphy) (addr : Nat) (data : Byte) :
    Avoids e (memphyWrite mp addr data) := by
  rw [memphyWrite]
  split
  · split
    · exact .ok _ _
    · exact .error hs
  · rw [memphySeqWrite]
    split
    · exact .ok _ _
    · split
      · exact .ok _ _
      · exact .error hs

theorem swapCpPage_avoids (hs : Ub.storageBounds ≠ e) (mpsrc : Memphy) (srcfpn : Nat)
    (mpdst : Memphy) (dstfpn : Nat) : Avoids e (swapCpPage mpsrc srcfpn mpdst dstfpn junk) := by
  rw [swapCpPage]
  refine Avoids.foldlM (fun d cellidx => ?_) _ _
  refine (memphyRead_avoids hs _ _ _).bind fun ⟨_, _, data⟩ _ => ?_
  exact (memphyWrite_avoids hs _ _ data).bind fun _ _ => .ok _ _

theorem allocPagesRange_avoids (hp : Ub.wildPointer ≠ e) : ∀ (n : Nat) (mram : Memphy),
    Avoids e (allocPagesRange mram n) := by
  intro n
  induction n with
  | zero => intro mram; exact .ok _ _
  | succ n ih =>
      intro mram
      refine (memphyGetFreefp_avoids hp mram).bind fun ⟨mram', r⟩ _ => ?_
      cases r with
      | none => exact .ok _ _
      | some fpn => exact (ih mram').bind fun _ _ => .ok _ _

/-! ## The system calls of the library -/

theorem intResult_avoids (hi : Ub.intOverflow ≠ e) (x : Int) : Avoids e (intResult x) := by
  rw [intResult]
  split
  · exact .ok _ _
  · exact .error hi

theorem incVmaLimit_avoids (hp : Ub.wildPointer ≠ e) (hi : Ub.intOverflow ≠ e) (vmaid : Int)
    (incSz : Addr) : Avoids e (incVmaLimit k p vmaid incSz) := by
  rw [incVmaLimit]
  split
  · exact .ok _ _
  · simp only
    split
    · split
      · exact .ok _ _
      · refine Avoids.bind ?_ fun r _ => ?_
        · refine (allocPagesRange_avoids hp _ _).bind fun r _ => ?_
          obtain ⟨_, _, ret⟩ := r
          simp only
          split
          · exact .ok _ _
          · split
            · exact .ok _ _
            · exact ((intResult_avoids hi _).bind fun _ _ => .ok _ _).bind fun _ _ => .ok _ _
        · obtain ⟨_, _, _, ret⟩ := r
          simp only
          split <;> exact .ok _ _
    · exact .ok _ _

/-- The request to grow. -/
theorem syscall_inc_avoids (hp : Ub.wildPointer ≠ e) (hi : Ub.intOverflow ≠ e) (a2 a3 : Addr) :
    Avoids e (syscall k p 17 { a1 := 2, a2, a3 } junk) := by
  rw [syscall, if_pos rfl]
  cases hf : findCaller k p with
  | none => rw [sysMemmap_lost hf]; exact .ok _ _
  | some q =>
      obtain rfl := findCaller_some hf
      rw [sysMemmap_inc hf]
      exact (incVmaLimit_avoids hp hi _ _).bind fun _ _ => .ok _ _

/-- The requests to copy a page, and to read or write a byte of RAM. -/
theorem syscall_io_avoids (hs : Ub.storageBounds ≠ e) {a1 : Addr} (a2 a3 : Addr)
    (hop : a1 = 3 ∨ a1 = 4 ∨ a1 = 5) : Avoids e (syscall k p 17 { a1, a2, a3 } junk) := by
  rw [syscall, if_pos rfl]
  cases hf : findCaller k p with
  | none => rw [sysMemmap_lost hf]; exact .ok _ _
  | some q =>
      obtain rfl := findCaller_some hf
      rcases hop with rfl | rfl | rfl
      · rw [sysMemmap_swp hf]
        refine Avoids.bind ?_ fun _ _ => .ok _ _
        exact (swapCpPage_avoids hs _ _ _ _).bind fun _ _ => .ok _ _
      · rw [sysMemmap_ioRead hf]
        exact (memphyRead_avoids hs _ _ _).bind fun _ _ => .ok _ _
      · rw [sysMemmap_ioWrite hf]
        exact (memphyWrite_avoids hs _ _ _).bind fun _ _ => .ok _ _

/-! ## The symbol table -/

variable {rgid : Int}

theorem setSymrg_avoids (hid : Ub.symtblBounds ≠ e ∨ InTable rgid) (rg : VmRg) :
    Avoids e (mm.setSymrg rgid rg) := by
  rw [Mm.setSymrg]
  split
  next => exact .ok _ _
  next hout => exact .error (hid.resolve_right hout)

theorem symrg_avoids (hid : Ub.symtblBounds ≠ e ∨ InTable rgid) :
    Avoids e (mm.symrg rgid) := by
  rw [Mm.symrg]
  split
  next => exact .ok _ _
  next hout => exact .error (hid.resolve_right hout)

/-- The two steps from an id to its entry in the table of `krnl->mm`. -/
theorem readEntry_avoids (hp : Ub.wildPointer ≠ e) : Avoids e (readEntry k rgid) := by
  rw [readEntry]
  split
  · exact .error hp
  · exact .ok _ _

theorem readEntry_id {ptr : Pid × Int} (h : readEntry k rgid = .ok ptr) : ptr.2 = rgid := by
  rw [readEntry] at h
  split at h
  · cases h
  · cases h
    rfl

theorem loadEntry_avoids {ptr : Pid × Int} (hp : Ub.wildPointer ≠ e)
    (hid : Ub.symtblBounds ≠ e ∨ InTable ptr.2) : Avoids e (loadEntry k ptr) := by
  rw [loadEntry]
  split
  · exact .error hp
  · exact symrg_avoids hid

theorem enlistVmFreergList_avoids (hp : Ub.wildPointer ≠ e) (rg : VmRg) :
    Avoids e (enlistVmFreergList mm rg) := by
  rw [enlistVmFreergList]
  split
  · exact .error hp
  · split <;> exact .ok _ _

theorem liballoc_avoids {regIndex : BitVec 32} (hp : Ub.wildPointer ≠ e)
    (hi : Ub.intOverflow ≠ e) (hid : Ub.symtblBounds ≠ e ∨ InTable regIndex.toInt) (size : Addr) :
    Avoids e (liballoc k p size regIndex junk) := by
  refine Avoids.bind ?_ fun r _ => ?_
  · rw [alloc]
    split
    · exact .ok _ _
    · split
      · exact .ok _ _
      · split
        · exact (setSymrg_avoids hid _).bind fun _ _ => .ok _ _
        · refine (intResult_avoids hi _).bind fun _ _ => ?_
          refine (syscall_inc_avoids hp hi _ _).bind fun r _ => ?_
          obtain ⟨k₁, regs, _⟩ := r
          simp only
          split
          · exact .error hp
          · refine (setSymrg_avoids hid _).bind fun mm₁ _ => ?_
            split
            · exact (enlistVmFreergList_avoids hp _).bind fun _ _ => .ok _ _
            · exact .ok _ _
  · obtain ⟨_, val, _⟩ := r
    simp only
    split <;> exact .ok _ _

/-- The test of `__free` lets one id outside the table through. -/
theorem libfree_avoids {regIndex : BitVec 32} (hp : Ub.wildPointer ≠ e)
    (hid : Ub.symtblBounds ≠ e ∨ regIndex.toInt ≠ pagingMaxSymtblSz) :
    Avoids e (libfree k p regIndex) := by
  refine Avoids.bind ?_ fun ⟨_, val⟩ _ => ?_
  · rw [free]
    split
    next => exact .ok _ _
    next hin =>
      have htab : Ub.symtblBounds ≠ e ∨ InTable regIndex.toInt :=
        hid.imp_right fun hne => ⟨by omega, by omega⟩
      split
      · exact .ok _ _
      · refine (symrg_avoids htab).bind fun rgnode _ => ?_
        split
        · exact .ok _ _
        · refine (setSymrg_avoids htab _).bind fun mm₁ _ => ?_
          exact (enlistVmFreergList_avoids hp _).bind fun _ _ => .ok _ _
  · simp only
    split <;> exact .ok _ _

/-! ## The fault handler and the access to a byte -/

theorem pgGetpage_avoids {pgn : Nat} (hp : Ub.wildPointer ≠ e) (hs : Ub.storageBounds ≠ e) :
    Avoids e (pgGetpage k mm pgn p junk) := by
  rw [pgGetpage]
  simp only [pteGetEntry_eq]
  split
  · split
    · exact .ok _ _
    · refine (memphyGetFreefp_avoids hp _).bind fun x _ => ?_
      obtain ⟨_, r⟩ := x
      cases r with
      | none => exact .ok _ _
      | some swpfpn =>
          refine (syscall_io_avoids hs _ _ (Or.inl rfl)).bind fun y _ => ?_
          obtain ⟨_, _, _⟩ := y
          split
          · exact (swapCpPage_avoids hs _ _ _ _).bind fun _ _ => .ok _ _
          · exact .ok _ _
  · exact .ok _ _

variable {addr : BitVec 32}

theorem pgGetval_avoids (hp : Ub.wildPointer ≠ e) (hs : Ub.storageBounds ≠ e) (data : Byte) :
    Avoids e (pgGetval k mm addr data p junk) := by
  refine (pgGetpage_avoids hp hs).bind fun ⟨_, r⟩ _ => ?_
  cases r with
  | none => exact .ok _ _
  | some fpn => exact (syscall_io_avoids hs _ _ (Or.inr (Or.inl rfl))).bind fun _ _ => .ok _ _

theorem pgSetval_avoids (hp : Ub.wildPointer ≠ e) (hs : Ub.storageBounds ≠ e) (value : Byte) :
    Avoids e (pgSetval k mm addr value p junk) := by
  refine (pgGetpage_avoids hp hs).bind fun ⟨_, r⟩ _ => ?_
  cases r with
  | none => exact .ok _ _
  | some fpn => exact (syscall_io_avoids hs _ _ (Or.inr (Or.inr rfl))).bind fun _ _ => .ok _ _

end Avoid

end SimpleOs
