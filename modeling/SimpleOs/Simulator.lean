/-
# `SimpleOs.Simulator` — from the files to the run (`os.c`, `loader.c`)

`main` reads the configuration, `ld_routine` loads the program of every process,
and the threads run on both.  Nothing changes a file meanwhile, so the programs
are read here before the threads start; a `load` that exits ends the run there.

`simulator_runs`: with a plain configuration and its programs installed, a run
executes in memory, for every process and in order, the lines of its file.
`simulator_completes`: if the RAM is large, the swap device has not just one frame
and the programs are tame, nothing undefined comes in between.
-/
import SimpleOs.Ample
import SimpleOs.Config
import SimpleOs.Loader

namespace SimpleOs

/-! ## `main`, up to the threads -/

/-- How `main` ends other than by running the threads. -/
inductive MainStop
  | config (stop : ConfigStop)
  | load (stop : LoadStop)
  deriving DecidableEq, Repr

/-- The calls of `load` in `ld_routine`, from process `i` on; `files` is what `fopen` gives. -/
def loadProcesses (junk : Nat → LoadJunk) (files : List Char → Option (List Char)) :
    BitVec 32 → Nat → List LdEntry → Except LoadStop (List LoadedPcb)
  | _, _, [] => .ok []
  | availPid, i, entry :: entries => do
      let (proc, availPid) ← load availPid (junk i) (files entry.path)
      let procs ← loadProcesses junk files availPid (i + 1) entries
      pure (proc :: procs)

/-- What the threads run on: the configuration, `code->text` of every process, and the machine. -/
structure Setup where
  cfg : OsCfg
  text : Pid → Nat → Inst
  sys : Sys

/-- The active swap device is the first. -/
def Config.setup (cfg : Config) (procs : List LoadedPcb) (ramJunk swpJunk : Bool) : Setup where
  cfg := {
    numCpus := cfg.numCpus.toInt.toNat
    timeSlot := cfg.timeSlot.toInt
    ldProcesses := List.zipWith (fun entry proc =>
      ⟨UInt64.ofBitVec entry.startTime, (entry.prio.setWidth 32).toNat, proc.code.size.toNat⟩)
      cfg.ldProcesses procs }
  text := fun p => procs[p]?.elim (fun _ => ⟨.calc, 0, 0, 0, 0⟩) (·.code.text)
  sys := boot cfg.memramsz (cfg.memswpsz.getD 0 0) ramJunk swpJunk

/-- `avail_pid` starts at 1. -/
def simulator (configJunk : ConfigJunk) (loadJunk : Nat → LoadJunk) (ramJunk swpJunk : Bool)
    (files : List Char → Option (List Char)) (config : Option (List Char)) :
    Except MainStop Setup :=
  match readConfig configJunk config with
  | .error stop => .error (.config stop)
  | .ok cfg =>
      match loadProcesses loadJunk files 1 0 cfg.ldProcesses with
      | .error stop => .error (.load stop)
      | .ok procs => .ok (cfg.setup procs ramJunk swpJunk)

/-! ## Files as written -/

/-- The program at each path, and whether its file ends with a newline. -/
structure Library where
  program : List Char → Program
  newline : List Char → Bool

def LdLine.path (l : LdLine) : List Char := procDir ++ l.name

/-- The programs of the configuration are there, their sizes are `uint32_t`s, and a file without a
newline at its end does not end in a line that `load` reads from an old buffer. -/
structure ConfigFile.Installed (f : ConfigFile) (lib : Library)
    (files : List Char → Option (List Char)) : Prop where
  file : ∀ l ∈ f.processes, files l.path = some ((lib.program l.path).file (lib.newline l.path))
  size : ∀ l ∈ f.processes, (lib.program l.path).lines.length < 2 ^ 32
  ends : ∀ l ∈ f.processes, lib.newline l.path = true ∨ (lib.program l.path).EndFed

/-- What the threads run. -/
def ConfigFile.os (f : ConfigFile) (lib : Library) : OsCfg :=
  f.config.os fun path => (lib.program path).lines.length

/-- The process is the program. -/
structure Program.Loaded (p : Program) (proc : LoadedPcb) : Prop where
  size : proc.code.size.toNat = p.lines.length
  text : ∀ k (line : Line), p.lines[k]? = some line → line.Is (proc.code.text k)

/-- Every instruction that the line may stand for is tame. -/
def Line.Tame (l : Line) : Prop := ∀ ins, l.Is ins → ins.Tame

section Files
variable {f : ConfigFile} {lib : Library} {files : List Char → Option (List Char)}
  {ls : List LdLine} {procs : List LoadedPcb}

/-- The programs load as written: without a newline, what counts is whether the last line is
bare. -/
theorem ConfigFile.Installed.loads (h : f.Installed lib files) :
    ∀ l ∈ f.processes, (lib.program l.path).Loads (lib.newline l.path) := by
  intro l hl
  have hn := h.size l hl
  cases hnl : lib.newline l.path with
  | true => exact Program.loads_of_fed hn (.inl (List.cons_ne_nil _ _))
  | false =>
      by_cases hbare : ∀ line ∈ (lib.program l.path).lines.getLast?, ¬ line.Bare
      · exact Program.loads_of_fed hn (.inr hbare)
      · obtain ⟨line, hlast, hline⟩ : ∃ line ∈ (lib.program l.path).lines.getLast?, line.Bare := by
          by_contra hnone
          exact hbare fun line hmem hline => hnone ⟨line, hmem, hline⟩
        obtain ⟨init, hlines⟩ := List.getLast?_eq_some_iff.mp hlast
        have hfed := (h.ends l hl).resolve_left (hnl ▸ Bool.false_ne_true)
        obtain ⟨l', hprev, hzero⟩ := hfed init line hlines hline
        exact Program.loads_of_starved hn hlines hline hprev hzero

theorem loadProcesses_files (junk : Nat → LoadJunk)
    (hfile : ∀ l ∈ ls, files l.path = some ((lib.program l.path).file (lib.newline l.path)))
    (hloads : ∀ l ∈ ls, (lib.program l.path).Loads (lib.newline l.path)) (availPid : BitVec 32)
    (i : Nat) : ∃ procs, loadProcesses junk files availPid i (ls.map LdLine.entry) = .ok procs ∧
      List.Forall₂ (fun l proc => (lib.program l.path).Loaded proc) ls procs := by
  induction ls generalizing availPid i with
  | nil => exact ⟨[], rfl, .nil⟩
  | cons l ls ih =>
      obtain ⟨proc, next, hload, hsize, htext⟩ := hloads l List.mem_cons_self availPid (junk i)
      obtain ⟨procs, hprocs, hall⟩ := ih (fun l' hl' => hfile l' (List.mem_cons_of_mem _ hl'))
        (fun l' hl' => hloads l' (List.mem_cons_of_mem _ hl')) next (i + 1)
      refine ⟨proc :: procs, ?_, .cons ⟨hsize, htext⟩ hall⟩
      have hopen : files l.entry.path = _ := hfile l List.mem_cons_self
      rw [List.map_cons, loadProcesses, hopen, hload]
      show (loadProcesses junk files next (i + 1) _).bind _ = _
      rw [hprocs]
      rfl

/-- The sizes of the programs are those of their files. -/
theorem setup_cfg {g : LdEntry → Nat → LdProcess}
    (h : List.Forall₂ (fun l proc => (lib.program l.path).Loaded proc) ls procs) :
    List.zipWith (fun entry proc => g entry proc.code.size.toNat) (ls.map LdLine.entry) procs =
      (ls.map LdLine.entry).map fun entry => g entry (lib.program entry.path).lines.length := by
  induction h with
  | nil => rfl
  | @cons l proc ls procs hl _ ih =>
      rw [List.map_cons, List.zipWith_cons_cons, ih, hl.size]
      rfl

/-- Process `i` is loaded from line `i`. -/
theorem loaded_getElem? (h : List.Forall₂ (fun l proc => (lib.program l.path).Loaded proc) ls procs)
    {i : Nat} {l : LdLine} (hl : ls[i]? = some l) :
    ∃ proc, procs[i]? = some proc ∧ (lib.program l.path).Loaded proc := by
  obtain ⟨hi, rfl⟩ := List.getElem?_eq_some_iff.mp hl
  have hi' : i < procs.length := h.length_eq ▸ hi
  exact ⟨procs[i], List.getElem?_eq_getElem hi', h.get hi hi'⟩

/-- All of a program, in order. -/
theorem Program.Loaded.forall₂ {p : Program} {proc : LoadedPcb} (h : p.Loaded proc) :
    List.Forall₂ Line.Is p.lines ((List.range p.lines.length).map proc.code.text) := by
  refine List.forall₂_iff_get.mpr ⟨by simp, fun i hi hi' => ?_⟩
  simp only [List.get_eq_getElem, List.getElem_map, List.getElem_range]
  exact h.text i _ (List.getElem?_eq_getElem hi)

/-- `main` comes to run what the files say. -/
theorem simulator_files {newline : Bool} (h : f.Plain newline) (hinst : f.Installed lib files)
    (configJunk : ConfigJunk) (loadJunk : Nat → LoadJunk) (ramJunk swpJunk : Bool) :
    ∃ procs, simulator configJunk loadJunk ramJunk swpJunk files (some (f.text newline)) =
        .ok (f.config.setup procs ramJunk swpJunk) ∧
      (f.config.setup procs ramJunk swpJunk).cfg = f.os lib ∧
      List.Forall₂ (fun l proc => (lib.program l.path).Loaded proc) f.processes procs := by
  obtain ⟨procs, hprocs, hall⟩ := loadProcesses_files loadJunk hinst.file hinst.loads 1 0
  refine ⟨procs, ?_, ?_, hall⟩
  · have hload : loadProcesses loadJunk files 1 0 f.config.ldProcesses = .ok procs := hprocs
    rw [simulator, h.readConfig configJunk]
    simp only [hload]
  · exact congrArg (OsCfg.mk _ _) (setup_cfg (g := fun entry size =>
      ⟨UInt64.ofBitVec entry.startTime, (entry.prio.setWidth 32).toNat, size⟩) hall)

theorem ConfigFile.os_proc (lib : Library) {i : Nat} {l : LdLine} (hl : f.processes[i]? = some l) :
    i < (f.os lib).numProcesses ∧ ((f.os lib).proc i).size = (lib.program l.path).lines.length := by
  obtain ⟨hi, rfl⟩ := List.getElem?_eq_some_iff.mp hl
  have hproc : (f.os lib).ldProcesses[i]? = some ⟨UInt64.ofBitVec f.processes[i].startTime,
      (f.processes[i].prio.setWidth 32).toNat,
      (lib.program f.processes[i].path).lines.length⟩ := by
    simp only [ConfigFile.os, Config.os, ConfigFile.config, List.getElem?_map, hl, Option.map_some]
    rfl
  refine ⟨(List.getElem?_eq_some_iff.mp hproc).1, ?_⟩
  rw [OsCfg.proc, List.getD_eq_getElem?_getD, hproc]
  rfl

theorem ConfigFile.os_proc_none (lib : Library) {i : Nat} (hl : f.processes[i]? = none) :
    ((f.os lib).proc i).size = 0 := by
  have hproc : (f.os lib).ldProcesses[i]? = none := by
    simp only [ConfigFile.os, Config.os, ConfigFile.config, List.getElem?_map, hl, Option.map_none]
  rw [OsCfg.proc, List.getD_eq_getElem?_getD, hproc]
  rfl

theorem setup_text {ramJunk swpJunk : Bool} {i : Nat} {proc : LoadedPcb}
    (h : procs[i]? = some proc) :
    (f.config.setup procs ramJunk swpJunk).text i = proc.code.text := by
  simp only [Config.setup, h, Option.elim_some]

/-- At the end every process has executed the lines of its file. -/
theorem executed_lines {ramJunk swpJunk : Bool} {es : List WholeEvent} {w : Whole} {s : Setup}
    (hs : s = f.config.setup procs ramJunk swpJunk) (hcfg : s.cfg = f.os lib)
    (hall : List.Forall₂ (fun l proc => (lib.program l.path).Loaded proc) f.processes procs)
    (hcpus : 1 ≤ s.cfg.numCpus) (hfits : s.cfg.Fits)
    (h : Lts.Reaches (wholeStep s.cfg s.text) (.start s.cfg s.sys) es w)
    (hend : w.os.Returned s.cfg) {i : Nat} {l : LdLine} (hl : f.processes[i]? = some l) :
    List.Forall₂ Line.Is (lib.program l.path).lines ((w.os.executed i).map (s.text i)) := by
  obtain ⟨proc, hproc, hloaded⟩ := loaded_getElem? hall hl
  obtain ⟨hi, hsize⟩ := ConfigFile.os_proc lib hl
  rw [← hcfg] at hi hsize
  subst hs
  rw [(returned_all hcpus hfits (Whole.projections h).1 hend hi).2, hsize, setup_text hproc]
  exact hloaded.forall₂

/-- Every instruction of tame programs is tame. -/
theorem setup_tame {ramJunk swpJunk : Bool} {s : Setup}
    (hs : s = f.config.setup procs ramJunk swpJunk) (hcfg : s.cfg = f.os lib)
    (hall : List.Forall₂ (fun l proc => (lib.program l.path).Loaded proc) f.processes procs)
    (htame : ∀ l ∈ f.processes, ∀ line ∈ (lib.program l.path).lines, line.Tame) :
    ∀ p, ∀ k < (s.cfg.proc p).size, (s.text p k).Tame := by
  intro p k hk
  rw [hcfg] at hk
  cases hl : f.processes[p]? with
  | none => exact absurd hk (by rw [ConfigFile.os_proc_none lib hl]; exact Nat.not_lt_zero k)
  | some l =>
      obtain ⟨proc, hproc, hloaded⟩ := loaded_getElem? hall hl
      rw [(ConfigFile.os_proc lib hl).2] at hk
      have hline := List.getElem?_eq_getElem hk
      subst hs
      rw [setup_text hproc]
      exact htame l (List.mem_of_getElem? hl) _ (List.getElem_mem hk) _ (hloaded.text k _ hline)

end Files

/-- `main` reads the configuration and the programs as they are written, whatever is in memory; the
threads then execute, in memory, the instructions of the programs that their log names; they can
always go on until all of them have returned, unless an instruction has undefined behaviour; and
then every process has executed the lines of its file, each once and in order. -/
theorem simulator_runs {f : ConfigFile} {newline : Bool} {lib : Library}
    {files : List Char → Option (List Char)} (h : f.Plain newline) (hinst : f.Installed lib files)
    (hcpus : 1 ≤ (f.os lib).numCpus) (hfits : (f.os lib).Fits) (configJunk : ConfigJunk)
    (loadJunk : Nat → LoadJunk) (ramJunk swpJunk : Bool) :
    ∃ s, simulator configJunk loadJunk ramJunk swpJunk files (some (f.text newline)) = .ok s ∧
      s.cfg = f.os lib ∧
      ∀ es w, Lts.Reaches (wholeStep s.cfg s.text) (.start s.cfg s.sys) es w →
        Ran s.text w.log w.os.log ∧
        (∀ symrgtbl junk, ∃ es' w',
          Lts.Run (wholeStep s.cfg s.text) (fun w e => e.Chosen symrgtbl junk w) w es' w' ∧
          (w'.os.Returned s.cfg ∨ ∃ c, w'.Undefined s.cfg s.text junk c)) ∧
        (w.os.Returned s.cfg → ∀ i l, f.processes[i]? = some l →
          List.Forall₂ Line.Is (lib.program l.path).lines ((w.os.executed i).map (s.text i))) := by
  obtain ⟨procs, hsim, hcfg, hall⟩ :=
    simulator_files h hinst configJunk loadJunk ramJunk swpJunk
  exact ⟨_, hsim, hcfg, fun es w hreach => ⟨ran_of_reaches hreach,
    fun symrgtbl junk => exists_whole_end (hcfg ▸ hcpus) (hcfg ▸ hfits) symrgtbl junk hreach,
    fun hend i l hl => executed_lines rfl hcfg hall (hcfg ▸ hcpus) (hcfg ▸ hfits) hreach hend hl⟩⟩

/-- A configuration of one process on one CPU. -/
def oneProgram : ConfigFile where
  timeSlot := 1
  numCpus := 1
  sizes := none
  processes :=
    [⟨0, ['p', '0'], 0, 3, by decide, word_of_all (by decide), by decide, by decide⟩]

/-- Every file is the same program: an allocation, and a calculation. -/
def allocCalc : Library where
  program := fun _ => {
    priority := 20
    lines := [
      { opcode := .alloc, args := [100, 4], args_le := by decide, args_eq := by decide },
      { opcode := .calc, args := [], args_le := by decide, args_eq := by decide }] }
  newline := fun _ => false

theorem oneProgram_plain : oneProgram.Plain true :=
  .of_name (by decide) (by decide) (by decide)
    fun _ => ⟨_, rfl, fun c hc => by obtain rfl := Option.some.inj hc; decide⟩

/-- The one file there is. -/
def procP0 (path : List Char) : Option (List Char) :=
  if path = "input/proc/p0".toList then some "20 2\nalloc 100 4\ncalc".toList else none

theorem oneProgram_installed : oneProgram.Installed allocCalc procP0 := by
  refine ⟨fun l hl => ?_, fun l hl => show 2 < 2 ^ 32 by decide, fun l hl => .inr ?_⟩
  · obtain rfl := List.mem_singleton.mp hl
    decide
  · -- the last line is `calc`, which has no operands to leave out
    intro init line hlines hbare
    have hlast := List.getLast?_eq_some_iff.mpr ⟨init, hlines⟩
    obtain rfl := Option.some.inj hlast
    exact absurd hbare.1 (by decide)

theorem oneProgram_fits : (oneProgram.os allocCalc).Fits :=
  ⟨by decide, fun _ => (List.length_filter_le _ _).trans (by decide)⟩

theorem simulator_runs_oneProgram : ∃ s,
    simulator dirtyConfig (fun _ => dirtyBuffer) false false procP0
      (some "1 1 1\n0 p0 3\n".toList) = .ok s ∧
    ∀ es w, Lts.Reaches (wholeStep s.cfg s.text) (.start s.cfg s.sys) es w →
      w.os.Returned s.cfg → ∃ a b, (w.os.executed 0).map (s.text 0) = [a, b] ∧
        a.opcode = .alloc ∧ [100, 4] <+: a.args ∧ b.opcode = .calc := by
  obtain ⟨s, hs, _, hrun⟩ := simulator_runs oneProgram_plain oneProgram_installed (by decide)
    oneProgram_fits dirtyConfig (fun _ => dirtyBuffer) false false
  refine ⟨s, hs, fun es w hreach hend => ?_⟩
  have hall := (hrun es w hreach).2.2 hend 0 _ rfl
  obtain ⟨a, as, ha, hcons, hlist⟩ := List.forall₂_cons_left_iff.mp hall
  obtain ⟨b, bs, hb, hnil, rfl⟩ := List.forall₂_cons_left_iff.mp hcons
  obtain rfl := List.forall₂_nil_left_iff.mp hnil
  exact ⟨a, b, hlist, ha.opcode, ha.args, hb.opcode⟩

/-- With at least 2^13 frames of RAM, a swap device of other than one frame (or one whose node
`malloc` left with a NULL link) and tame programs, an instruction and the creation of a process
being one step each, no instruction of any run has undefined behaviour, and every run can go on to
the end, where every process has executed the lines of its file, each once and in order. -/
theorem simulator_completes {f : ConfigFile} {newline : Bool} {lib : Library}
    {files : List Char → Option (List Char)} (h : f.Plain newline) (hinst : f.Installed lib files)
    (hcpus : 1 ≤ (f.os lib).numCpus) (hfits : (f.os lib).Fits)
    (htame : ∀ l ∈ f.processes, ∀ line ∈ (lib.program l.path).lines, line.Tame)
    (configJunk : ConfigJunk) (loadJunk : Nat → LoadJunk) (ramJunk swpJunk : Bool)
    (hram : 2 ^ 13 ≤ (initMemphy f.config.memramsz true ramJunk).numfp)
    (hswp : (initMemphy (f.config.memswpsz.getD 0 0) true swpJunk).numfp ≠ 1 ∨ swpJunk = true) :
    ∃ s, simulator configJunk loadJunk ramJunk swpJunk files (some (f.text newline)) = .ok s ∧
      ∀ symrgtbl junk es w, Lts.Reaches (wholeStep s.cfg s.text) (.start s.cfg s.sys) es w →
        (∀ c, ¬ w.Undefined s.cfg s.text junk c) ∧
        ∃ es' w', Lts.Run (wholeStep s.cfg s.text) (fun w e => e.Chosen symrgtbl junk w) w es' w' ∧
          w'.os.Returned s.cfg ∧ Ran s.text w'.log w'.os.log ∧
          ∀ i l, f.processes[i]? = some l →
            List.Forall₂ Line.Is (lib.program l.path).lines
              ((w'.os.executed i).map (s.text i)) := by
  obtain ⟨procs, hsim, hcfg, hall⟩ :=
    simulator_files h hinst configJunk loadJunk ramJunk swpJunk
  have htext := setup_tame rfl hcfg hall htame
  refine ⟨_, hsim, fun symrgtbl junk es w hreach =>
    ⟨never_undefined htext hram hswp hreach junk, ?_⟩⟩
  obtain ⟨es', w', hrun, hcase⟩ :=
    exists_whole_end (hcfg ▸ hcpus) (hcfg ▸ hfits) symrgtbl junk hreach
  have hreach' := hreach.append hrun.reaches
  have hend : w'.os.Returned (f.config.setup procs ramJunk swpJunk).cfg :=
    hcase.resolve_right fun ⟨c, hub⟩ => never_undefined htext hram hswp hreach' junk c hub
  exact ⟨es', w', hrun, hend, ran_of_reaches hreach', fun i l hl =>
    executed_lines rfl hcfg hall (hcfg ▸ hcpus) (hcfg ▸ hfits) hreach' hend hl⟩

theorem oneProgram_tame : ∀ l ∈ oneProgram.processes,
    ∀ line ∈ (allocCalc.program l.path).lines, line.Tame := by
  intro l _ line hline ins his
  rcases List.mem_cons.mp hline with rfl | hline
  · obtain ⟨rest, hargs⟩ := his.args
    obtain ⟨h₀, h₁⟩ : (100 : Addr) = ins.arg0 ∧ (4 : Addr) = ins.arg1 :=
      ⟨(List.cons.inj hargs).1, (List.cons.inj (List.cons.inj hargs).2).1⟩
    refine ⟨?_, fun _ => ?_, fun hop => absurd (his.opcode.symm.trans hop) (by decide)⟩
    · simp only [Inst.IdInBounds, his.opcode, ← h₁]
      decide
    · rw [← h₀]
      decide
  · obtain rfl := List.mem_singleton.mp hline
    refine ⟨?_, fun hop => absurd (his.opcode.symm.trans hop) (by decide),
      fun hop => absurd (his.opcode.symm.trans hop) (by decide)⟩
    simp only [Inst.IdInBounds, his.opcode]

/-- The sizes are the defaults. -/
theorem simulator_completes_oneProgram : ∃ s es w,
    simulator dirtyConfig (fun _ => dirtyBuffer) false false procP0
      (some "1 1 1\n0 p0 3\n".toList) = .ok s ∧
    Lts.Reaches (wholeStep s.cfg s.text) (.start s.cfg s.sys) es w ∧ w.os.Returned s.cfg := by
  obtain ⟨s, hs, hrun⟩ := simulator_completes oneProgram_plain oneProgram_installed (by decide)
    oneProgram_fits oneProgram_tame dirtyConfig (fun _ => dirtyBuffer) false false
    (show 2 ^ 13 ≤ (initMemphy 16777216 true false).numfp by rw [default_numfp]; decide)
    (Or.inl (show (initMemphy 16777216 true false).numfp ≠ 1 by rw [default_numfp]; decide))
  obtain ⟨_, es, w, hgo, hend, _⟩ := hrun (fun _ _ => ⟨0, 0⟩) (fun _ => 0) [] _ .nil
  exact ⟨s, es, w, hs, hgo.reaches, hend⟩

end SimpleOs
