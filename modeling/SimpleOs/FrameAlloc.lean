/-
# `SimpleOs.FrameAlloc` — the frame allocator of a device

`MEMPHY_get_freefp` and `MEMPHY_put_freefp` on a device as `init_memphy` made
it, in any order, where only frames that are handed out are put back.  Frames
handed out and frames on the free list are a partition of the frames of the
device (`Pool.Partition`), so a frame is never handed out twice.

What can go wrong is the end of the list.  `MEMPHY_format` writes the link of a
node when it appends the next one and so never writes the link of a single node:
on a device of one frame the list ends where `malloc` says.
-/
import Mathlib.Data.Finset.Basic
import SimpleOs.Lib.Pool
import SimpleOs.Lib.Run
import SimpleOs.Memphy

namespace SimpleOs

/-! ## Calls -/

/-- A call of the frame allocator. -/
inductive FrameCall
  | get
  | put (fpn : Nat)
  deriving DecidableEq, Repr

/-- A device and the frames that are handed out. -/
structure Frames where
  mp : Memphy
  out : Finset Nat

/-- A device of which no frame is handed out. -/
def Frames.start (mp : Memphy) : Frames := ⟨mp, ∅⟩

/-- One call.  A walk that leaves the list has no successor. -/
def frameStep (s : Frames) : FrameCall → Option Frames
  | .get =>
      match memphyGetFreefp s.mp with
      | .ok (mp, some fpn) => some ⟨mp, insert fpn s.out⟩
      | .ok (mp, none) => some ⟨mp, s.out⟩
      | .error _ => none
  | .put fpn => some ⟨memphyPutFreefp s.mp fpn, s.out.erase fpn⟩

/-- Only frames that are handed out are put back. -/
def Frames.Ok (s : Frames) : FrameCall → Prop
  | .get => True
  | .put fpn => fpn ∈ s.out

/-- The free list is the frames that are not handed out, each once, and ends; a call takes one of
them, or fails because there are none. -/
structure Frames.Lawful (num : Nat) (s : Frames) : Prop where
  closed : s.mp.freeFpList.closed = true
  nodup : s.mp.freeFpList.fpns.Nodup
  mem_iff : ∀ f, f ∈ s.mp.freeFpList.fpns ↔ f < num ∧ f ∉ s.out
  get : ∃ mp' r, memphyGetFreefp s.mp = .ok (mp', r) ∧ (∀ f, r = some f → f ∉ s.out) ∧
    (r = none ↔ ∀ f < num, f ∈ s.out)

/-! ## The partition -/

/-- A frame that is handed out is held under its own number. -/
def heldFrame (out : Finset Nat) (f : Nat) : Option Nat := if f ∈ out then some f else none

section Held
variable {out : Finset Nat} {f g : Nat}

theorem heldFrame_some : heldFrame out f = some g ↔ f = g ∧ f ∈ out := by
  rw [heldFrame]
  split
  next h => rw [Option.some.injEq, and_iff_left h]
  next h => exact iff_of_false (Option.some_ne_none g).symm fun hc => h hc.2

theorem heldFrame_none : heldFrame out f = none ↔ f ∉ out := by
  rw [heldFrame]
  split
  next h => exact iff_of_false (Option.some_ne_none f) fun hc => hc h
  next h => exact iff_of_true rfl h

theorem heldFrame_insert_of_ne (h : g ≠ f) : heldFrame (insert f out) g = heldFrame out g :=
  if_congr (by rw [Finset.mem_insert, or_iff_right h]) rfl rfl

theorem heldFrame_erase_of_ne (h : g ≠ f) : heldFrame (out.erase f) g = heldFrame out g :=
  if_congr (by rw [Finset.mem_erase, and_iff_right h]) rfl rfl

end Held

/-- No frame is lost and none is in two places, and the list ends in NULL. -/
structure Frames.Kept (num : Nat) (s : Frames) : Prop where
  parts : Pool.Partition (heldFrame s.out) s.mp.freeFpList.fpns num
  closed : s.mp.freeFpList.closed = true

section Calls
variable {num : Nat} {s s' : Frames} {e : FrameCall}

theorem Frames.Kept.step (h : s.Kept num) (hok : s.Ok e) (hs : frameStep s e = some s') :
    s'.Kept num := by
  cases e with
  | get =>
      cases hl : s.mp.freeFpList.fpns with
      | nil =>
          rw [frameStep, memphyGetFreefp_nil hl h.closed] at hs
          obtain rfl := Option.some.inj hs
          exact h
      | cons f rest =>
          rw [frameStep, memphyGetFreefp_cons hl] at hs
          obtain rfl := Option.some.inj hs
          have hparts := h.parts
          rw [hl] at hparts
          have hnot : f ∉ s.out := fun hout =>
            hparts.disjoint f f (heldFrame_some.mpr ⟨rfl, hout⟩) List.mem_cons_self
          refine ⟨hparts.give (heldFrame_none.mpr hnot) ?_ fun j hj => heldFrame_insert_of_ne hj,
            h.closed⟩
          exact heldFrame_some.mpr ⟨rfl, Finset.mem_insert_self f _⟩
  | put f =>
      obtain rfl := Option.some.inj hs
      refine ⟨h.parts.putBack (heldFrame_some.mpr ⟨rfl, hok⟩) ?_
        fun j hj => heldFrame_erase_of_ne hj, h.closed⟩
      exact heldFrame_none.mpr (Finset.notMem_erase f _)

/-- The free list is what is not handed out. -/
theorem Frames.Kept.mem_iff (h : s.Kept num) (f : Nat) :
    f ∈ s.mp.freeFpList.fpns ↔ f < num ∧ f ∉ s.out := by
  constructor
  · intro hf
    exact ⟨h.parts.free_lt f hf,
      fun hout => h.parts.disjoint f f (heldFrame_some.mpr ⟨rfl, hout⟩) hf⟩
  · rintro ⟨hlt, hnot⟩
    refine (h.parts.total f hlt).resolve_right ?_
    rintro ⟨i, hi⟩
    obtain ⟨rfl, hout⟩ := heldFrame_some.mp hi
    exact hnot hout

theorem Frames.Kept.lawful (h : s.Kept num) : s.Lawful num := by
  refine ⟨h.closed, h.parts.nodup, h.mem_iff, ?_⟩
  cases hl : s.mp.freeFpList.fpns with
  | nil =>
      refine ⟨_, _, memphyGetFreefp_nil hl h.closed, fun f hf => (nomatch hf), ?_⟩
      refine iff_of_true rfl fun f hf => ?_
      by_contra hnot
      have hmem := (h.mem_iff f).mpr ⟨hf, hnot⟩
      rw [hl] at hmem
      exact List.not_mem_nil hmem
  | cons f rest =>
      obtain ⟨hlt, hnot⟩ := (h.mem_iff f).mp (by rw [hl]; exact List.mem_cons_self)
      refine ⟨_, _, memphyGetFreefp_cons hl, ?_, ?_⟩
      · rintro g hg
        obtain rfl := Option.some.inj hg
        exact hnot
      · exact iff_of_false (Option.some_ne_none f) fun hall => hnot (hall f hlt)

end Calls

/-- The link of node 0 is written, or there is no node 0, or `malloc` left NULL there. -/
theorem initMemphy_closed_iff (maxSize : Addr) (randomflg junk : Bool) :
    (initMemphy maxSize randomflg junk).freeFpList.closed = true ↔
      (initMemphy maxSize randomflg junk).numfp ≠ 1 ∨ junk = true := by
  refine ⟨fun hclosed => ?_, initMemphy_closed maxSize randomflg junk⟩
  by_contra hno
  obtain ⟨hone, hjunk⟩ := not_or.mp hno
  rw [not_not, Memphy.numfp, initMemphy_maxsz] at hone
  have hpos : ¬ (maxSize.setWidth 32).toInt.tdiv pagingPagesz ≤ 0 := by omega
  simp only [initMemphy, memphyFormat, if_neg hpos, hone] at hclosed
  exact hjunk hclosed

/-- The allocator is lawful after every sequence of calls exactly when the device does not have
one frame, or `malloc` left NULL in the link of that frame's node. -/
theorem frame_allocator (maxSize : Addr) (randomflg junk : Bool) :
    (∀ es s, Lts.Run frameStep Frames.Ok (.start (initMemphy maxSize randomflg junk)) es s →
      s.Lawful (initMemphy maxSize randomflg junk).numfp) ↔
    (initMemphy maxSize randomflg junk).numfp ≠ 1 ∨ junk = true := by
  rw [← initMemphy_closed_iff]
  constructor
  · intro h
    exact (h [] _ .nil).closed
  · intro hclosed es s hrun
    have hstart : (Frames.start (initMemphy maxSize randomflg junk)).Kept
        (initMemphy maxSize randomflg junk).numfp := by
      refine ⟨?_, hclosed⟩
      show Pool.Partition _ (initMemphy maxSize randomflg junk).freeFpList.fpns _
      rw [initMemphy_fpns]
      exact .fresh (fun f => heldFrame_none.mpr (Finset.notMem_empty f)) _
    exact (hrun.invariant hstart fun _ _ _ hkept hok hs => hkept.step hok hs).lawful

/-- A device of 256 bytes has one frame.  Where `malloc` did not return zeroed memory, the second
call follows a wild pointer instead of failing. -/
theorem single_frame_runs_off : ∃ s,
    Lts.Run frameStep Frames.Ok (.start (initMemphy 256 true false)) [.get] s ∧
    s.out = {0} ∧ memphyGetFreefp s.mp = .error .wildPointer ∧
    ¬ s.Lawful (initMemphy 256 true false).numfp := by
  have hfirst : frameStep (.start (initMemphy 256 true false)) FrameCall.get =
      some ⟨(initMemphy 256 true false).take 0 [], insert 0 ∅⟩ := by
    rw [frameStep, Frames.start, memphyGetFreefp_cons (by decide : _ = 0 :: [])]
  have hwild : memphyGetFreefp ((initMemphy 256 true false).take 0 []) = .error .wildPointer := by
    rfl
  refine ⟨_, Lts.Run.nil.snoc FrameCall.get trivial hfirst, rfl, hwild, fun hlaw => ?_⟩
  obtain ⟨_, _, hget, _⟩ := hlaw.get
  rw [hwild] at hget
  exact nomatch hget

end SimpleOs
