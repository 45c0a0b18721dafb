/-
# `SimpleOs.Storage` — a device as a store of bytes

`MEMPHY_read` and `MEMPHY_write` with addresses below `maxsz`.  A random access
device is a store: what is read is what was last written there, zero before
that.  `__swap_cp_page` between two of them copies a page.

`MEMPHY_seq_read` and `MEMPHY_seq_write` refuse a device unless `rdmflg` is
set, and are only called when it is not.  So a sequential device refuses every
access, and the law holds of it only when it has no address at all.
-/
import Mathlib.Logic.Function.Basic
import SimpleOs.Lib.Run
import SimpleOs.Memphy

namespace SimpleOs

/-! ## Calls -/

/-- An access of a device; `value` is what the caller's `*value` held. -/
inductive MemCall
  | read (addr : Nat) (value : Byte)
  | write (addr : Nat) (data : Byte)
  deriving DecidableEq, Repr

def MemCall.addr : MemCall → Nat
  | .read addr _ => addr
  | .write addr _ => addr

/-- The device after an access, its status, and for a read the byte in `*value`. -/
def memCall (mp : Memphy) : MemCall → Except Ub (Memphy × Int × Option Byte)
  | .read addr value => do
      let (mp, st, value) ← memphyRead mp addr value
      pure (mp, st, some value)
  | .write addr data => do
      let (mp, st) ← memphyWrite mp addr data
      pure (mp, st, none)

/-- A sequence of accesses. -/
def memCalls (mp : Memphy) (cs : List MemCall) : Except Ub (Memphy × List (Int × Option Byte)) :=
  Lts.repliesM memCall mp cs

/-- The accesses are below `maxsz`. -/
def Memphy.InRange (mp : Memphy) (cs : List MemCall) : Prop := ∀ c ∈ cs, (c.addr : Int) < mp.maxsz

instance (mp : Memphy) (cs : List MemCall) : Decidable (mp.InRange cs) :=
  inferInstanceAs (Decidable (∀ c ∈ cs, (c.addr : Int) < mp.maxsz))

/-! ## The store -/

/-- A store of bytes: a write is seen at its address only, and succeeds. -/
def storeCall (f : Nat → Byte) : MemCall → (Nat → Byte) × Int × Option Byte
  | .read addr _ => (f, 0, some (f addr))
  | .write addr data => (Function.update f addr data, 0, none)

/-- Every sequence of accesses is answered as a store of zeros answers it. -/
def StorageLaw (mp₀ : Memphy) : Prop :=
  ∀ cs, mp₀.InRange cs → ∃ mp,
    memCalls mp₀ cs = .ok (mp, (Lts.replies storeCall (fun _ => 0) cs).2) ∧
    mp.storage = (Lts.replies storeCall (fun _ => 0) cs).1

/-- Frame `dstfpn` holds the bytes of frame `srcfpn`, and that is all that has changed. -/
structure Copied (mpsrc : Memphy) (srcfpn : Nat) (mpdst : Memphy) (dstfpn : Nat)
    (mpdst' : Memphy) : Prop where
  same : ∀ o < pagingPagesz, mpdst'.storage (dstfpn * pagingPagesz + o) =
    mpsrc.storage (srcfpn * pagingPagesz + o)
  other : ∀ a, a / pagingPagesz ≠ dstfpn → mpdst'.storage a = mpdst.storage a
  rest : { mpdst' with storage := mpdst.storage } = mpdst

/-- After any accesses of the two devices, a page is copied, and copied back it is what it was,
whatever has been done to the first device in between. -/
def CopyLaw (mp₁ mp₂ : Memphy) : Prop :=
  ∀ cs₁ cs₂ mpsrc mpdst replies₁ replies₂, mp₁.InRange cs₁ → mp₂.InRange cs₂ →
    memCalls mp₁ cs₁ = .ok (mpsrc, replies₁) → memCalls mp₂ cs₂ = .ok (mpdst, replies₂) →
    ∀ srcfpn < mp₁.numfp, ∀ dstfpn < mp₂.numfp, ∀ junk, ∃ mpdst',
      swapCpPage mpsrc srcfpn mpdst dstfpn junk = .ok (mpsrc, mpdst') ∧
      Copied mpsrc srcfpn mpdst dstfpn mpdst' ∧
      ∀ cs mpsrc₁ replies, mp₁.InRange cs → memCalls mpsrc cs = .ok (mpsrc₁, replies) →
        ∀ junk, ∃ mpsrc₂,
          swapCpPage mpdst' dstfpn mpsrc₁ srcfpn junk = .ok (mpdst', mpsrc₂) ∧
          Copied mpdst' dstfpn mpsrc₁ srcfpn mpsrc₂ ∧
          ∀ o < pagingPagesz, mpsrc₂.storage (srcfpn * pagingPagesz + o) =
            mpsrc.storage (srcfpn * pagingPagesz + o)

/-! ## Random access -/

/-- `mp` with other bytes. -/
def Memphy.withBytes (mp : Memphy) (f : Nat → Byte) : Memphy := { mp with storage := f }

section Random
variable {mp mp' mp₁ mp₂ : Memphy} {c : MemCall} {cs : List MemCall}
  {replies : List (Int × Option Byte)}

@[simp] theorem Memphy.withBytes_storage (f : Nat → Byte) : (mp.withBytes f).storage = f := rfl

theorem Memphy.store_eq (addr : Nat) (data : Byte) :
    mp.store addr data = mp.withBytes (Function.update mp.storage addr data) := by
  have hbytes : (fun a => if a = addr then data else mp.storage a) =
      Function.update mp.storage addr data := by
    funext a
    rw [Function.update_apply]
  rw [Memphy.store, hbytes]
  rfl

theorem Memphy.Random.withBytes (h : mp.Random) (f : Nat → Byte) : (mp.withBytes f).Random :=
  ⟨h.rdm, h.maxsz_le, h.maxsz_lt⟩

theorem memCall_random (h : mp.Random) (hin : (c.addr : Int) < mp.maxsz) :
    memCall mp c = .ok (mp.withBytes (storeCall mp.storage c).1, (storeCall mp.storage c).2) := by
  have hle := h.maxsz_le
  cases c with
  | read addr value =>
      have hlt : (addr : Int) < mp.maxsz := hin
      simp only [memCall, memphyRead_random h.rdm, if_pos (by omega : addr < mp.cap)]
      rfl
  | write addr data =>
      have hlt : (addr : Int) < mp.maxsz := hin
      simp only [memCall, memphyWrite_random h.rdm, if_pos (by omega : addr < mp.cap),
        Memphy.store_eq]
      rfl

/-- A random access device is a store. -/
theorem memCalls_random (h : mp.Random) (hin : mp.InRange cs) :
    memCalls mp cs = .ok (mp.withBytes (Lts.replies storeCall mp.storage cs).1,
      (Lts.replies storeCall mp.storage cs).2) := by
  have hstep : ∀ mp' f c, mp' = mp.withBytes f → (c.addr : Int) < mp.maxsz →
      ∃ mp'', memCall mp' c = .ok (mp'', (storeCall f c).2) ∧
        mp'' = mp.withBytes (storeCall f c).1 := by
    rintro _ f c rfl hc
    exact ⟨_, memCall_random (h.withBytes f) hc, rfl⟩
  have hstart : mp = mp.withBytes mp.storage := rfl
  obtain ⟨mp', hcs, rfl⟩ := Lts.repliesM_sim hstep hstart hin
  exact hcs

/-- Accesses change bytes only. -/
theorem memCalls_withBytes (h : mp.Random) (hin : mp.InRange cs)
    (hcs : memCalls mp cs = .ok (mp', replies)) : ∃ f, mp' = mp.withBytes f := by
  rw [memCalls_random h hin] at hcs
  cases hcs
  exact ⟨_, rfl⟩

theorem copied_random {mpsrc mpdst : Memphy} {srcfpn dstfpn : Nat} (hs : mpsrc.Random)
    (hd : mpdst.Random) (hsrc : srcfpn < mpsrc.numfp) (hdst : dstfpn < mpdst.numfp) (junk : Byte) :
    ∃ f, swapCpPage mpsrc srcfpn mpdst dstfpn junk = .ok (mpsrc, mpdst.withBytes f) ∧
      Copied mpsrc srcfpn mpdst dstfpn (mpdst.withBytes f) := by
  have h₁ := hs.inStorage hsrc (by decide : 255 < 256)
  have h₂ := hd.inStorage hdst (by decide : 255 < 256)
  refine ⟨(mpdst.copyCells mpsrc srcfpn dstfpn 256).storage, ?_, ?_, ?_, rfl⟩
  · rw [swapCpPage_random hs.rdm hd.rdm, if_pos ⟨by omega, by omega⟩]
    rfl
  · exact fun o ho => copyCells_same ho
  · intro a ha
    rw [pagingPagesz] at ha
    have hcell : (mpdst.copyCells mpsrc srcfpn dstfpn 256).storage (a / 256 * 256 + a % 256) =
        mpdst.storage (a / 256 * 256 + a % 256) :=
      copyCells_other (Nat.mod_lt a (by decide : 0 < 256)) ha
    rwa [Nat.div_add_mod' a 256] at hcell

theorem copyLaw_random (h₁ : mp₁.Random) (h₂ : mp₂.Random) : CopyLaw mp₁ mp₂ := by
  intro cs₁ cs₂ mpsrc mpdst replies₁ replies₂ hin₁ hin₂ hcs₁ hcs₂ srcfpn hsrc dstfpn hdst junk
  obtain ⟨f₁, rfl⟩ := memCalls_withBytes h₁ hin₁ hcs₁
  obtain ⟨f₂, rfl⟩ := memCalls_withBytes h₂ hin₂ hcs₂
  obtain ⟨f, hout, hcopied⟩ := copied_random (h₁.withBytes f₁) (h₂.withBytes f₂) hsrc hdst junk
  refine ⟨_, hout, hcopied, ?_⟩
  intro cs mpsrc₁ replies hin hcs junk'
  obtain ⟨f₃, rfl⟩ := memCalls_withBytes (h₁.withBytes f₁) hin hcs
  obtain ⟨f', hback, hcopied'⟩ := copied_random ((h₂.withBytes f₂).withBytes f)
    ((h₁.withBytes f₁).withBytes f₃) hdst hsrc junk'
  exact ⟨_, hback, hcopied', fun o ho => (hcopied'.same o ho).trans (hcopied.same o ho)⟩

end Random

/-! ## Sequential access -/

section Init
variable {maxSize : Addr} {randomflg junk : Bool}

/-- A device without addresses has no frames. -/
theorem numfp_of_maxsz_le {mp : Memphy} (h : mp.maxsz ≤ 0) : mp.numfp = 0 := by
  by_contra hne
  have hbound := mp.numfp_bound (Nat.pos_of_ne_zero hne) (by decide : 0 < 256)
  omega

/-- A sequential device refuses every access, a random access device is a store. -/
theorem storageLaw_iff : StorageLaw (initMemphy maxSize randomflg junk) ↔
    randomflg = true ∨ (initMemphy maxSize randomflg junk).maxsz ≤ 0 := by
  have hzero : (initMemphy maxSize randomflg junk).storage = fun _ => 0 :=
    funext fun a => initMemphy_storage ..
  constructor
  · intro h
    by_contra hno
    obtain ⟨hseq, hpos⟩ := not_or.mp hno
    rw [Bool.not_eq_true] at hseq
    subst hseq
    obtain ⟨mp, hcs, _⟩ := h [.write 0 0] fun c hc => by
      rw [List.mem_singleton.mp hc]
      exact Int.not_le.mp hpos
    have hrefused : memCalls (initMemphy maxSize false junk) [.write 0 0] =
        .ok (initMemphy maxSize false junk, [(-1, none)]) := by rfl
    rw [hrefused] at hcs
    have hstatus : ([(-1, none)] : List (Int × Option Byte)) = [(0, none)] :=
      (Prod.mk.inj (Except.ok.inj hcs)).2
    exact absurd hstatus (by decide)
  · rintro (rfl | hle) cs hin
    · have hcs := memCalls_random (initMemphy_random maxSize junk) hin
      rw [hzero] at hcs
      exact ⟨_, hcs, rfl⟩
    · have hnil : cs = [] := List.eq_nil_iff_forall_not_mem.mpr fun c hc => by
        have hlt := hin c hc
        omega
      subst hnil
      exact ⟨_, rfl, hzero⟩

end Init

/-- Two devices obey the storage law, and pages are copied between them, exactly when each of them
is a random access device or has no address. -/
theorem storage_law (maxSize₁ maxSize₂ : Addr) (randomflg₁ randomflg₂ junk₁ junk₂ : Bool) :
    (StorageLaw (initMemphy maxSize₁ randomflg₁ junk₁) ∧
      StorageLaw (initMemphy maxSize₂ randomflg₂ junk₂) ∧
      CopyLaw (initMemphy maxSize₁ randomflg₁ junk₁) (initMemphy maxSize₂ randomflg₂ junk₂)) ↔
    (randomflg₁ = true ∨ (initMemphy maxSize₁ randomflg₁ junk₁).maxsz ≤ 0) ∧
      (randomflg₂ = true ∨ (initMemphy maxSize₂ randomflg₂ junk₂).maxsz ≤ 0) := by
  rw [storageLaw_iff, storageLaw_iff]
  refine ⟨fun h => ⟨h.1, h.2.1⟩, fun ⟨h₁, h₂⟩ => ⟨h₁, h₂, ?_⟩⟩
  rcases h₁ with rfl | hle
  · rcases h₂ with rfl | hle
    · exact copyLaw_random (initMemphy_random ..) (initMemphy_random ..)
    · intro _ _ _ _ _ _ _ _ _ _ _ _ dstfpn hdst
      rw [numfp_of_maxsz_le hle] at hdst
      exact absurd hdst (Nat.not_lt_zero dstfpn)
  · intro _ _ _ _ _ _ _ _ _ _ srcfpn hsrc
    rw [numfp_of_maxsz_le hle] at hsrc
    exact absurd hsrc (Nat.not_lt_zero srcfpn)

/-- A sequential device of 512 bytes refuses to store a byte, and a page copied to it does not
arrive. -/
theorem sequential_refuses :
    memCalls (initMemphy 512 false true) [.write 0 7] =
      .ok (initMemphy 512 false true, [(-1, none)]) ∧
    ¬ StorageLaw (initMemphy 512 false true) ∧
    ¬ CopyLaw (initMemphy 512 true true) (initMemphy 512 false true) := by
  refine ⟨rfl, ?_, ?_⟩
  · rw [storageLaw_iff]
    decide
  · intro h
    obtain ⟨mpdst', hcopy, hcopied, _⟩ := h [.write 0 7] [] _ _ _ _ (by decide) (by decide)
      (memCalls_random (initMemphy_random 512 true) (by decide)) rfl 0 (by decide) 0 (by decide) 0
    have hsame : mpdst'.storage 0 = 7 := hcopied.same 0 (by decide)
    have hread := congrArg (fun r => r.toOption.map fun mps => mps.2.storage 0) hcopy
    have hzero : some (mpdst'.storage 0) = some 0 := hread.symm.trans (by decide +kernel)
    rw [hsame] at hzero
    exact absurd hzero (by decide)

end SimpleOs
