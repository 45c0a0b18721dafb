/-
# `SimpleOs.Effects` — what the library calls do to the kernel

One inversion lemma per call, on a process that has its one area:

  * `alloc_cases`   carve a free region, or ask the kernel to grow (`Grown`)
                    and record the region in any case;
  * `free_cases`    refuse, or move the entry to the free regions;
  * `read_cases`    at most the page fault of the access;
  * `write_cases`   the page fault and at most one byte stored.

`Grown` is the four ways the growth request can end, none of which the library
looks at.
-/
import SimpleOs.Machine

namespace SimpleOs

/-! ## Growing -/

/-- What the request to grow by `sz` leaves: nothing changed because the caller was not found or
the range was refused, all pages mapped, or all free frames lost. -/
inductive Grown (k : Krnl) (p : Pid) (mm : Mm) (sz : Addr) : Krnl → Prop
  | lost : p ∉ k.sched.runningList.toList → Grown k p mm sz k
  | refused : p ∈ k.sched.runningList.toList → mm.sbrk ≥ mm.sbrk + sz → Grown k p mm sz k
  | grow : p ∈ k.sched.runningList.toList → mm.sbrk < mm.sbrk + sz →
      pagesFor sz.toNat ≤ k.mram.freeFpList.fpns.length →
      Grown k p mm sz (k.grow p mm (pagesFor sz.toNat))
  | starve : p ∈ k.sched.runningList.toList → mm.sbrk < mm.sbrk + sz →
      k.mram.freeFpList.fpns.length < pagesFor sz.toNat → k.mram.freeFpList.closed = true →
      Grown k p mm sz (k.starve p mm sz)

section Inc
variable {k : Krnl} {p : Pid} {mm : Mm}

theorem viaU32_lt (x : Addr) : (viaU32 x).toNat < 2 ^ 32 := by
  rw [toNat_viaU32]
  exact Nat.mod_lt _ (by decide)

theorem incVmaLimit_cases {k' : Krnl} {vmaid : Int} {sz : Addr} {st : Int}
    (hmm : k.ownMm p = some mm) (hs : mm.Single) (hp : p ∈ k.sched.runningList.toList)
    (hsz : sz.toNat < 2 ^ 32) (h : incVmaLimit k p vmaid sz = .ok (k', st)) :
    (BitVec.ofInt 64 vmaid ≠ 0 ∧ k' = k) ∨ (BitVec.ofInt 64 vmaid = 0 ∧ Grown k p mm sz k') := by
  rw [incVmaLimit_eq hmm hs hsz] at h
  by_cases hid : BitVec.ofInt 64 vmaid = 0
  · refine Or.inr ⟨hid, ?_⟩
    by_cases hge : mm.sbrk ≥ mm.sbrk + sz
    · rw [if_pos (Or.inr hge)] at h
      cases h
      exact .refused hp hge
    · have hlt : mm.sbrk < mm.sbrk + sz := BitVec.not_le.mp hge
      rw [if_neg (by rintro (h | h); exacts [h hid, hge h])] at h
      by_cases hn : pagesFor sz.toNat ≤ k.mram.freeFpList.fpns.length
      · rw [if_pos hn] at h
        split at h
        next => cases h; exact .grow hp hlt hn
        next => exact nomatch h
      · rw [if_neg hn] at h
        split at h
        next hc => cases h; exact .starve hp hlt (by omega) hc
        next => exact nomatch h
  · rw [if_pos (Or.inl hid)] at h
    cases h
    exact Or.inl ⟨hid, rfl⟩

/-- The library's own request, always for area 0. -/
theorem syscall_inc_cases {k' : Krnl} {sz : Addr} {regs : ScRegs} {junk : Byte} {ret : Int}
    (hmm : k.ownMm p = some mm) (hs : mm.Single)
    (h : syscall k p 17 { a1 := 2, a2 := 0, a3 := sz } junk = .ok (k', regs, ret)) :
    regs.a3 = sz ∧ Grown k p mm (viaU32 sz) k' := by
  rw [syscall, if_pos rfl] at h
  by_cases hp : p ∈ k.sched.runningList.toList
  · have hf : findCaller k p = some p := by rw [findCaller_eq, if_pos hp]
    rw [sysMemmap_inc hf, bind_ok] at h
    obtain ⟨⟨k₁, st⟩, hinc, hret⟩ := h
    cases hret
    rcases incVmaLimit_cases hmm hs hp (viaU32_lt sz) hinc with ⟨hne, _⟩ | ⟨_, hg⟩
    · exact absurd rfl hne
    · exact ⟨rfl, hg⟩
  · have hf : findCaller k p = none := by rw [findCaller_eq, if_neg hp]
    rw [sysMemmap_lost hf] at h
    cases h
    exact ⟨rfl, .lost hp⟩

/-- The request is defined unless it runs off an open free list, or takes more frames than a device
has. -/
theorem syscall_inc_defined (sz : Addr) (junk : Byte) (hmm : k.ownMm p = some mm) (hs : mm.Single)
    (hfit : k.mram.freeFpList.fpns.length < 2 ^ 23)
    (hc : pagesFor (viaU32 sz).toNat ≤ k.mram.freeFpList.fpns.length ∨
      k.mram.freeFpList.closed = true) :
    ∃ k' ret, syscall k p 17 { a1 := 2, a2 := 0, a3 := sz } junk =
      .ok (k', { a1 := 2, a2 := 0, a3 := sz }, ret) := by
  rw [syscall, if_pos rfl]
  by_cases hp : p ∈ k.sched.runningList.toList
  · have hf : findCaller k p = some p := by rw [findCaller_eq, if_pos hp]
    rw [sysMemmap_inc hf, incVmaLimit_eq hmm hs (viaU32_lt sz)]
    split
    next => exact ⟨_, _, rfl⟩
    next =>
      split
      next hn => rw [if_pos (Nat.lt_of_le_of_lt hn hfit)]; exact ⟨_, _, rfl⟩
      next hn => rw [if_pos (hc.resolve_left hn)]; exact ⟨_, _, rfl⟩
  · have hf : findCaller k p = none := by rw [findCaller_eq, if_neg hp]
    rw [sysMemmap_lost hf]
    exact ⟨_, _, rfl⟩

end Inc

/-- Where a request to grow by `sz` leaves a break at `brk`. -/
def Krnl.grownBrk (k : Krnl) (p : Pid) (brk sz : Addr) : Addr :=
  if p ∈ k.sched.runningList.toList ∧ brk < brk + sz then
    if pagesFor sz.toNat ≤ k.mram.freeFpList.fpns.length then
      brk + BitVec.ofNat 64 (pagesFor sz.toNat * 256)
    else brk + sz
  else brk

/-- Whatever the request did, the process still has its structure, and the regions and the symbol
table in it are untouched. -/
theorem Grown.own {k k' : Krnl} {p : Pid} {mm : Mm} {sz : Addr} (hmm : k.ownMm p = some mm)
    (hs : mm.Single) (h : Grown k p mm sz k') :
    ∃ mm', k'.ownMm p = some mm' ∧ mm'.Single ∧ mm'.freerg = mm.freerg ∧
      mm'.symrgtbl = mm.symrgtbl ∧ mm'.sbrk = k.grownBrk p mm.sbrk sz := by
  cases h with
  | lost hp =>
      exact ⟨mm, hmm, hs, rfl, rfl, by rw [Krnl.grownBrk, if_neg (fun h => hp h.1)]⟩
  | refused _ hge =>
      have hn : ¬ (p ∈ k.sched.runningList.toList ∧ mm.sbrk < mm.sbrk + sz) :=
        fun h => BitVec.not_le.mpr h.2 hge
      exact ⟨mm, hmm, hs, rfl, rfl, by rw [Krnl.grownBrk, if_neg hn]⟩
  | grow hp hlt hn =>
      refine ⟨_, Krnl.setMm_self _ _ _, Mm.Single.withVma hs.vmId, rfl,
        Mm.mapFrames_symrgtbl _ _ _, ?_⟩
      rw [Krnl.grownBrk, if_pos ⟨hp, hlt⟩, if_pos hn]
      rfl
  | starve hp hlt hn _ =>
      refine ⟨_, Krnl.setMm_self _ _ _, Mm.Single.withVma hs.vmId, rfl, rfl, ?_⟩
      rw [Krnl.grownBrk, if_pos ⟨hp, hlt⟩, if_neg (by omega)]
      rfl

/-! ## Allocation -/

/-- `mm` after the search for a free region, which may unlink one that starts at address -1 and
report none. -/
def Mm.searched (mm : Mm) (size : Addr) : Mm := (getFreeVmrgArea mm 0 (size.setWidth 32).toInt).1

/-- The region the search reports. -/
def Mm.found (mm : Mm) (size : Addr) : Option VmRg :=
  (getFreeVmrgArea mm 0 (size.setWidth 32).toInt).2

theorem Mm.searched_cases {mm : Mm} (hs : mm.Single) (size : Addr) :
    (firstFit (viaInt size) mm.freerg = none ∧ mm.searched size = mm ∧ mm.found size = none) ∨
    (∃ rg rgs, firstFit (viaInt size) mm.freerg = some (rg, rgs) ∧
      mm.searched size = mm.withFree rgs ∧
      ((rg.rgStart = -1 ∧ mm.found size = none) ∨
       (rg.rgStart ≠ -1 ∧ mm.found size = some rg))) := by
  rw [Mm.searched, Mm.found, getFreeVmrgArea_eq hs]
  have hv : BitVec.ofInt 64 (size.setWidth 32).toInt = viaInt size := rfl
  rw [hv]
  cases firstFit (viaInt size) mm.freerg with
  | none => exact Or.inl ⟨rfl, rfl, rfl⟩
  | some res =>
      obtain ⟨rg, rgs⟩ := res
      refine Or.inr ⟨rg, rgs, rfl, rfl, ?_⟩
      by_cases h : rg.rgStart = -1
      · exact Or.inl ⟨h, if_pos h⟩
      · exact Or.inr ⟨h, if_neg h⟩

/-- A region reported is the first that fits. -/
theorem Mm.found_some {mm : Mm} {size : Addr} {rg : VmRg} (hs : mm.Single)
    (hf : mm.found size = some rg) :
    ∃ rgs, firstFit (viaInt size) mm.freerg = some (rg, rgs) ∧
      mm.searched size = mm.withFree rgs := by
  rcases Mm.searched_cases hs size with ⟨_, _, hn⟩ | ⟨rg', rgs, hfit, hsearch, hcase⟩
  · exact nomatch hn.symm.trans hf
  · rcases hcase with ⟨_, hn⟩ | ⟨_, hsome⟩
    · exact nomatch hn.symm.trans hf
    · obtain rfl : rg' = rg := Option.some.inj (hsome.symm.trans hf)
      exact ⟨rgs, hfit, hsearch⟩

/-- Among regions none of which starts at -1, none is reported only if none fits. -/
theorem Mm.found_none {mm : Mm} {size : Addr} (hs : mm.Single)
    (hstart : ∀ g ∈ mm.freerg, g.rgStart ≠ -1) (hf : mm.found size = none) :
    firstFit (viaInt size) mm.freerg = none ∧ mm.searched size = mm := by
  rcases Mm.searched_cases hs size with ⟨hfit, hsearch, _⟩ | ⟨rg, rgs, hfit, _, hcase⟩
  · exact ⟨hfit, hsearch⟩
  · rcases hcase with ⟨hone, _⟩ | ⟨_, hsome⟩
    · obtain ⟨pre, g, post, hsplit, _, _, rfl, _⟩ := firstFit_cases hfit
      have hg : g ∈ mm.freerg := hsplit ▸ List.mem_append_right _ List.mem_cons_self
      exact absurd hone (hstart g hg)
    · exact nomatch hf.symm.trans hsome

/-- The search moves free regions only. -/
theorem Mm.searched_frame {mm : Mm} (hs : mm.Single) (size : Addr) :
    (mm.searched size).pgd = mm.pgd ∧ (mm.searched size).fifoPgn = mm.fifoPgn ∧
    (mm.searched size).symrgtbl = mm.symrgtbl ∧ (mm.searched size).sbrk = mm.sbrk ∧
    (mm.searched size).Single := by
  rcases Mm.searched_cases hs size with ⟨_, h, _⟩ | ⟨rg, rgs, _, h, _⟩
  · rw [h]; exact ⟨rfl, rfl, rfl, rfl, hs⟩
  · rw [h]; exact ⟨rfl, rfl, rfl, rfl, hs.withFree rgs⟩

section Alloc
variable {k : Krnl} {p : Pid} {mm : Mm} {rgid : Int} {size : Addr} {junk : Byte}

theorem alloc_found {rg : VmRg} (hmm : k.ownMm p = some mm) (hs : mm.Single)
    (hf : mm.found size = some rg) : alloc k p 0 rgid size junk = (do
      let mm ← (mm.searched size).setSymrg rgid rg
      pure (k.setMm p mm, 0, some rg.rgStart)) := by
  have hv : mm.getVmaByNum 0 = some mm.vma := by rw [hs.getVmaByNum]; rfl
  have hsearch : getFreeVmrgArea mm 0 (size.setWidth 32).toInt = (mm.searched size, some rg) := by
    rw [← hf]; rfl
  rw [alloc, hmm]
  simp only [hv, hsearch]

theorem alloc_grow (hmm : k.ownMm p = some mm) (hs : mm.Single) (hf : mm.found size = none) :
    alloc k p 0 rgid size junk = (do
      let _ ← intResult (incSz size + 1)
      let (k, regs, _) ←
        syscall (k.setMm p (mm.searched size)) p 17 { a1 := 2, a2 := 0, a3 := size } junk
      match k.ownMm p with
      | none => .error .wildPointer
      | some mm₂ =>
          let mm₂ ← mm₂.setSymrg rgid
            { rgStart := viaInt mm.sbrk, rgEnd := viaInt mm.sbrk + size }
          let mm₂ ←
            if regs.a3 > size then do
              let (mm₂, _) ← enlistVmFreergList mm₂
                { rgStart := viaInt mm.sbrk + size, rgEnd := viaInt mm.sbrk + regs.a3 }
              pure mm₂
            else pure mm₂
          pure (k.setMm p mm₂, 0, some (viaInt mm.sbrk))) := by
  have hv : mm.getVmaByNum 0 = some mm.vma := by rw [hs.getVmaByNum]; rfl
  have hsearch : getFreeVmrgArea mm 0 (size.setWidth 32).toInt = (mm.searched size, none) := by
    rw [← hf]; rfl
  rw [alloc, hmm]
  simp only [hv, hsearch]
  rfl

/-- Everything `__alloc` can do when it returns. -/
theorem alloc_cases {k' : Krnl} {st : Int} {addr : Option Addr} (hmm : k.ownMm p = some mm)
    (hs : mm.Single) (h : alloc k p 0 rgid size junk = .ok (k', st, addr)) :
    0 ≤ rgid ∧ rgid < pagingMaxSymtblSz ∧ st = 0 ∧
    ((∃ rg, mm.found size = some rg ∧ addr = some rg.rgStart ∧
      k' = k.setMm p ((mm.searched size).setEntry rgid.toNat rg)) ∨
     (mm.found size = none ∧ addr = some (viaInt mm.sbrk) ∧ ∃ k₂ mm₂,
      Grown (k.setMm p (mm.searched size)) p (mm.searched size) (viaU32 size) k₂ ∧
      k₂.ownMm p = some mm₂ ∧
      k' = k₂.setMm p (mm₂.setEntry rgid.toNat
        { rgStart := viaInt mm.sbrk, rgEnd := viaInt mm.sbrk + size }))) := by
  have hs₁ := (Mm.searched_frame hs size).2.2.2.2
  cases hf : mm.found size with
  | some rg =>
      rw [alloc_found hmm hs hf, bind_ok] at h
      obtain ⟨mm₁, hset, hret⟩ := h
      obtain ⟨h0, hlt, rfl⟩ := Mm.setSymrg_ok hset
      cases hret
      exact ⟨h0, hlt, rfl, Or.inl ⟨rg, rfl, rfl, rfl⟩⟩
  | none =>
      simp only [alloc_grow hmm hs hf, bind_ok] at h
      obtain ⟨_, _, ⟨k₂, regs, ret⟩, hsys, h⟩ := h
      obtain ⟨hregs, hgrown⟩ := syscall_inc_cases (Krnl.setMm_self _ _ _) hs₁ hsys
      obtain ⟨mm₂, hmm₂, _⟩ := hgrown.own (Krnl.setMm_self _ _ _) hs₁
      simp only [hmm₂, bind_ok, hregs] at h
      obtain ⟨mm₃, hset, h⟩ := h
      obtain ⟨h0, hlt, rfl⟩ := Mm.setSymrg_ok hset
      -- the kernel never reports in `a3` how much it really added
      rw [if_neg (BitVec.lt_irrefl size)] at h
      cases h
      exact ⟨h0, hlt, rfl, Or.inr ⟨rfl, rfl, k₂, mm₂, hgrown, hmm₂, rfl⟩⟩

/-- `__alloc` is defined when the id is in bounds, `inc_sz + 1` fits an `int` if it comes to that,
and there are frames enough or the free list of RAM ends in NULL. -/
theorem alloc_defined (size : Addr) (junk : Byte) (hmm : k.ownMm p = some mm) (hs : mm.Single)
    (h0 : 0 ≤ rgid) (hlt : rgid < pagingMaxSymtblSz)
    (hinc : mm.found size = none → SizeFits size)
    (hfit : k.mram.freeFpList.fpns.length < 2 ^ 23)
    (hc : pagesFor (viaU32 size).toNat ≤ k.mram.freeFpList.fpns.length ∨
      k.mram.freeFpList.closed = true) :
    ∃ res, alloc k p 0 rgid size junk = .ok res := by
  have hs₁ := (Mm.searched_frame hs size).2.2.2.2
  cases hf : mm.found size with
  | some rg =>
      rw [alloc_found hmm hs hf, Mm.setSymrg_inBounds _ _ h0 hlt]
      exact ⟨_, rfl⟩
  | none =>
      obtain ⟨k₂, ret, hsys⟩ := syscall_inc_defined (k := k.setMm p (mm.searched size)) (p := p)
        size junk (Krnl.setMm_self _ _ _) hs₁ hfit hc
      obtain ⟨_, hgrown⟩ := syscall_inc_cases (Krnl.setMm_self _ _ _) hs₁ hsys
      obtain ⟨mm₂, hmm₂, _⟩ := hgrown.own (Krnl.setMm_self _ _ _) hs₁
      rw [alloc_grow hmm hs hf, intResult_incSz, if_pos (hinc hf), hsys]
      simp only [bind, Except.bind, hmm₂, Mm.setSymrg_inBounds _ _ h0 hlt,
        if_neg (BitVec.lt_irrefl size)]
      exact ⟨_, rfl⟩

/-- `liballoc` passes the status on. -/
theorem liballoc_ok {k' : Krnl} {regIndex : BitVec 32} {st : Int}
    (h : liballoc k p size regIndex junk = .ok (k', st)) :
    ∃ addr, alloc k p 0 regIndex.toInt size junk = .ok (k', st, addr) := by
  rw [liballoc, bind_ok] at h
  obtain ⟨⟨k₁, val, addr⟩, halloc, h⟩ := h
  simp only at h
  split at h
  next hval => cases h; exact ⟨addr, hval ▸ halloc⟩
  next => cases h; exact ⟨addr, halloc⟩

theorem liballoc_of_alloc {k' : Krnl} {regIndex : BitVec 32} {st : Int} {addr : Option Addr}
    (h : alloc k p 0 regIndex.toInt size junk = .ok (k', st, addr)) :
    liballoc k p size regIndex junk = .ok (k', st) := by
  rw [liballoc, h]
  show (if st = -1 then Except.ok (k', -1) else .ok (k', st)) = _
  split
  next hst => rw [hst]
  next => rfl

end Alloc

/-! ## Deallocation -/

section Free
variable {k : Krnl} {p : Pid} {mm : Mm} {rgid : Int}

/-- `mm` with `rg` at the head of its free regions, unless it is empty. -/
def Mm.enlistFree (mm : Mm) (rg : VmRg) : Mm :=
  if rg.rgStart ≥ rg.rgEnd then mm else mm.withFree (rg :: mm.freerg)

/-- Everything `__free` can do when it returns. -/
theorem free_cases {k' : Krnl} {st : Int} (hmm : k.ownMm p = some mm) (hs : mm.Single)
    (h : free k p 0 rgid = .ok (k', st)) :
    (st = -1 ∧ k' = k) ∨
    (0 ≤ rgid ∧ rgid < pagingMaxSymtblSz ∧ st = 0 ∧
      ¬ ((mm.symrgtbl rgid.toNat).rgStart = 0 ∧ (mm.symrgtbl rgid.toNat).rgEnd = 0) ∧
      k' = k.setMm p ((mm.setEntry rgid.toNat { rgStart := 0, rgEnd := 0 }).enlistFree
        (mm.symrgtbl rgid.toNat))) := by
  rw [free] at h
  split at h
  next => cases h; exact Or.inl ⟨rfl, rfl⟩
  next =>
    simp only [hmm, bind_ok] at h
    obtain ⟨rg, hrg, h⟩ := h
    obtain ⟨h0, hlt, rfl⟩ := Mm.symrg_ok hrg
    split at h
    next => cases h; exact Or.inl ⟨rfl, rfl⟩
    next hne =>
      rw [bind_ok] at h
      obtain ⟨mm₁, hset, h⟩ := h
      obtain ⟨_, _, rfl⟩ := Mm.setSymrg_ok hset
      rw [bind_ok] at h
      obtain ⟨⟨mm₂, st₂⟩, hen, h⟩ := h
      rw [(hs.congr (Mm.setEntry_mmap mm _ _)).enlistVmFreergList] at hen
      refine Or.inr ⟨h0, hlt, ?_⟩
      rw [Mm.enlistFree]
      split at hen
      next hge => cases hen; cases h; exact ⟨rfl, hne, by rw [if_pos hge]⟩
      next hge => cases hen; cases h; exact ⟨rfl, hne, by rw [if_neg hge]; rfl⟩

/-- `__free` of an id in the table refuses an entry that reads (0, 0) and moves any other one. -/
theorem free_inTable (hmm : k.ownMm p = some mm) (hs : mm.Single) (h0 : 0 ≤ rgid)
    (hlt : rgid < pagingMaxSymtblSz) : free k p 0 rgid =
      if (mm.symrgtbl rgid.toNat).rgStart = 0 ∧ (mm.symrgtbl rgid.toNat).rgEnd = 0 then .ok (k, -1)
      else .ok (k.setMm p ((mm.setEntry rgid.toNat { rgStart := 0, rgEnd := 0 }).enlistFree
        (mm.symrgtbl rgid.toNat)), 0) := by
  have hb : ¬ (rgid < 0 ∨ rgid > pagingMaxSymtblSz) := by omega
  rw [free, if_neg hb]
  simp only [hmm, Mm.symrg_inBounds mm h0 hlt, bind, Except.bind]
  by_cases hz : (mm.symrgtbl rgid.toNat).rgStart = 0 ∧ (mm.symrgtbl rgid.toNat).rgEnd = 0
  · rw [if_pos hz, if_pos hz]
    rfl
  · rw [if_neg hz, if_neg hz, Mm.setSymrg_inBounds _ _ h0 hlt]
    simp only [(hs.congr (Mm.setEntry_mmap mm _ _)).enlistVmFreergList]
    by_cases hge : (mm.symrgtbl rgid.toNat).rgStart ≥ (mm.symrgtbl rgid.toNat).rgEnd
    · rw [if_pos hge, Mm.enlistFree, if_pos hge]
      rfl
    · rw [if_neg hge, Mm.enlistFree, if_neg hge]
      rfl

/-- `__free` is defined for every id but the one just past the table. -/
theorem free_defined (hmm : k.ownMm p = some mm) (hs : mm.Single)
    (hne : rgid ≠ pagingMaxSymtblSz) : ∃ res, free k p 0 rgid = .ok res := by
  by_cases hb : rgid < 0 ∨ rgid > pagingMaxSymtblSz
  · exact ⟨_, if_pos hb⟩
  · rw [free_inTable hmm hs (by omega) (by omega)]
    split
    next => exact ⟨_, rfl⟩
    next => exact ⟨_, rfl⟩

/-- `libfree` passes failure on. -/
theorem libfree_ok {k' : Krnl} {regIndex : BitVec 32} {st : Int}
    (h : libfree k p regIndex = .ok (k', st)) :
    ∃ val, free k p 0 regIndex.toInt = .ok (k', val) ∧ (val = -1 ↔ st = -1) := by
  rw [libfree, bind_ok] at h
  obtain ⟨⟨k₁, val⟩, hfree, h⟩ := h
  simp only at h
  split at h
  next hval => cases h; exact ⟨val, hfree, ⟨fun _ => rfl, fun _ => hval⟩⟩
  next hval => cases h; exact ⟨val, hfree, ⟨fun hv => absurd hv hval, fun h0 => nomatch h0⟩⟩

end Free

/-! ## Access -/

/-- The address a READ or WRITE of `p` passes to `pg_getval` or `pg_setval`, if it gets there. -/
def accessAddr (k : Krnl) (mm : Mm) (ins : Inst) : Option (BitVec 32) :=
  match ins.opcode with
  | .read =>
      match readEntry k (ins.arg0.setWidth 32).toInt with
      | .error _ => none
      | .ok ptr =>
          match loadEntry k ptr with
          | .error _ => none
          | .ok rg => some ((rg.rgStart + ins.arg1).setWidth 32)
  | .write =>
      match mm.symrg (ins.arg1.setWidth 32).toInt with
      | .error _ => none
      | .ok rg => some ((rg.rgStart + ins.arg2).setWidth 32)
  | _ => none

section Access
variable {k k' : Krnl} {p : Pid} {mm : Mm} {ins : Inst} {junk : Byte} {st : Int}

/-- READ refuses a bad id, or does what `pg_getpage` does. -/
theorem read_cases (hmm : k.ownMm p = some mm) (hop : ins.opcode = .read)
    (hrdm : ∀ pgn k₁ r, pgGetpage k mm pgn p junk = .ok (k₁, r) → k₁.mram.rdmflg = true)
    (h : exec k p ins junk = .ok (k', st)) :
    (k' = k ∧ st = -1) ∨
    (∃ addr r, accessAddr k mm ins = some addr ∧ st = 0 ∧
      pgGetpage k mm (pagingPgn addr) p junk = .ok (k', r)) := by
  simp only [exec, hop, libread, bind_ok] at h
  obtain ⟨⟨k₁, val, dst⟩, ⟨⟨k₂, val₂, data⟩, hread, h₂⟩, h₁⟩ := h
  cases h₁
  cases h₂
  simp only [read, hmm] at hread
  split at hread
  next => cases hread; exact Or.inl ⟨rfl, rfl⟩
  next rgid hid =>
    have hrgid : rgid = (ins.arg0.setWidth 32).toInt := by
      rw [getSymrgById] at hid
      split at hid
      · exact nomatch hid
      · exact (Option.some.inj hid).symm
    subst hrgid
    rw [bind_ok] at hread
    obtain ⟨ptr, hptr, hread⟩ := hread
    rw [bind_ok] at hread
    obtain ⟨rg, hrg, hread⟩ := hread
    rw [bind_ok] at hread
    obtain ⟨⟨k₃, st₃, data₃⟩, hget, hread⟩ := hread
    cases hread
    obtain ⟨r, hpage, _⟩ := pgGetval_ok (fun k₁ r => hrdm _ k₁ r) hget
    exact Or.inr ⟨_, r, by simp only [accessAddr, hop, hptr, hrg], rfl, hpage⟩

/-- WRITE refuses a bad id, or does what `pg_getpage` does and stores at most one byte in the
frame that returned. -/
theorem write_cases (hmm : k.ownMm p = some mm) (hs : mm.Single) (hop : ins.opcode = .write)
    (hrdm : ∀ pgn k₁ r, pgGetpage k mm pgn p junk = .ok (k₁, r) →
      k₁.mram.rdmflg = true ∧ ∀ f, r = some f → f < 2 ^ 13)
    (h : exec k p ins junk = .ok (k', st)) :
    (k' = k ∧ st = -1) ∨
    (∃ addr k₁ r, accessAddr k mm ins = some addr ∧ st = 0 ∧
      pgGetpage k mm (pagingPgn addr) p junk = .ok (k₁, r) ∧
      ((r = none ∧ k' = k₁) ∨
       (∃ fpn, r = some fpn ∧ p ∉ k₁.sched.runningList.toList ∧ k' = k₁) ∨
       (∃ fpn, r = some fpn ∧ p ∈ k₁.sched.runningList.toList ∧
          k' = { k₁ with mram :=
            k₁.mram.store (fpn * 256 + pagingOffst addr) (ins.arg0.setWidth 8) }))) := by
  have hv : mm.getVmaByNum 0 = some mm.vma := by rw [hs.getVmaByNum]; rfl
  simp only [exec, hop, libwrite, bind_ok] at h
  obtain ⟨⟨k₂, val⟩, hwrite, h₁⟩ := h
  simp only [write, hmm, hv] at hwrite
  split at hwrite
  next rgid vma hid _ =>
    have hrgid : rgid = (ins.arg1.setWidth 32).toInt := by
      rw [getSymrgById] at hid
      split at hid
      · exact nomatch hid
      · exact (Option.some.inj hid).symm
    subst hrgid
    rw [bind_ok] at hwrite
    obtain ⟨rg, hrg, hwrite⟩ := hwrite
    rw [bind_ok] at hwrite
    obtain ⟨⟨k₃, st₃⟩, hset, hwrite⟩ := hwrite
    cases hwrite
    cases h₁
    obtain ⟨k₁, r, hpage, hcase⟩ := pgSetval_ok (fun k₁ r => hrdm _ k₁ r) hset
    refine Or.inr ⟨_, k₁, r, by simp only [accessAddr, hop, hrg], rfl, hpage, ?_⟩
    rcases hcase with ⟨hr, _, hk⟩ | ⟨f, hr, _, hn, hk⟩ | ⟨f, hr, _, hin, hk⟩
    · exact Or.inl ⟨hr, hk⟩
    · exact Or.inr (Or.inl ⟨f, hr, hn, hk⟩)
    · exact Or.inr (Or.inr ⟨f, hr, hin, hk⟩)
  next => cases hwrite; cases h₁; exact Or.inl ⟨rfl, rfl⟩

end Access

end SimpleOs
