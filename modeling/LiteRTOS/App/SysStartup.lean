import LiteRTOS.Library.ByteCopy
import LiteRTOS.Machine.System

/-!
# The start-up code

Before `main` is called, `crt_init_ram` copies the initial values of the statics from ROM to RAM and
clears the others, and `crt_init_ctors` calls the constructors whose addresses the linker has put
into a table. What RAM contains at power-up is not known. The variables of the kernel are cleared
with the `.bss` section, so that the state in which `OS_Init` finds them does not depend on it.

The loops run over sections given by the symbols of the linker script. Nothing in the code requires
that the sections do not overlap or that their sizes are multiples of anything. The results say what
follows from the addresses.

## Main definitions

* `Sections`: the symbols.
* `crtInitRam`, `crtInitCtors`: the functions of `SysStartup.c`.
* `Image.boot`: the machine after `crt_init_ram` and `OS_Init`.

## Main results

* `crtInitRam_apply`: every byte of the memory after `crt_init_ram`.
* `crtInitRam_iff`: for which sections the statics are initialised.
* `crtInitCtors_iff`: when `crt_init_ctors` returns.
* `boot_refines`: the machine started with any contents of RAM.
-/

namespace LiteRTOS

open ByteMemory

/-- The symbols of the linker script. -/
structure Sections where
  /-- `_rom_data_begin`. -/
  romDataBegin : BitVec 32
  /-- `_data_begin`. -/
  dataBegin : BitVec 32
  /-- `_data_end`. -/
  dataEnd : BitVec 32
  /-- `_bss_begin`. -/
  bssBegin : BitVec 32
  /-- `_bss_end`. -/
  bssEnd : BitVec 32
  /-- `_ctors_begin`. -/
  ctorsBegin : BitVec 32
  /-- `_ctors_end`. -/
  ctorsEnd : BitVec 32

namespace Sections

variable (S : Sections)

/-- `size_data`, an unsigned difference of addresses. -/
def sizeData : BitVec 32 := S.dataEnd - S.dataBegin

/-- `size_bss`. -/
def sizeBss : BitVec 32 := S.bssEnd - S.bssBegin

/-- The byte `b` is in the `.data` section. -/
def InData (b : BitVec 32) : Prop := (b - S.dataBegin).toNat < S.sizeData.toNat

/-- The byte `b` is in the `.bss` section. -/
def InBss (b : BitVec 32) : Prop := (b - S.bssBegin).toNat < S.sizeBss.toNat

instance (b : BitVec 32) : Decidable (S.InData b) := inferInstanceAs (Decidable (_ < _))

instance (b : BitVec 32) : Decidable (S.InBss b) := inferInstanceAs (Decidable (_ < _))

end Sections

/-! ### The statics -/

/-- `crt_init_ram`. -/
def crtInitRam (S : Sections) (m : ByteMemory) : ByteMemory :=
  let m := m.copyBytes S.dataBegin S.romDataBegin S.sizeData.toNat
  m.fillBytes S.bssBegin 0 S.sizeBss.toNat

variable {S : Sections} {m : ByteMemory} {b : BitVec 32}

/-- Every byte of the memory after `crt_init_ram`, for all sections. -/
theorem crtInitRam_apply (S : Sections) (m : ByteMemory) (b : BitVec 32) : crtInitRam S m b =
    if S.InBss b then 0
    else if S.InData b then m (S.romDataBegin +
      BitVec.ofNat 32 ((b - S.dataBegin).toNat % (S.dataBegin - S.romDataBegin).toNat))
    else m b := by
  rw [crtInitRam, fillBytes_apply S.sizeBss.isLt.le, copyBytes_apply S.sizeData.isLt.le]
  rfl

theorem crtInitRam_of_not (hb : ¬S.InBss b) :
    crtInitRam S m b = m.copyBytes S.dataBegin S.romDataBegin S.sizeData.toNat b :=
  (fillBytes_apply S.sizeBss.isLt.le ..).trans (if_neg hb)

/-- The byte `i` of the `.data` section. -/
theorem Sections.inData_add (S : Sections) {i : ℕ} (hi : i < S.sizeData.toNat) :
    (S.dataBegin + BitVec.ofNat 32 i - S.dataBegin).toNat = i := by
  have := S.sizeData.isLt
  bv_omega

/-- **When the statics are initialised.** Whatever the memory, after `crt_init_ram` the `.data`
section contains the bytes that were at `_rom_data_begin`, the `.bss` section zeros, and all other
bytes are as before, if and only if the sections have no byte in common and the initial values are
in place or do not run into the `.data` section. -/
theorem crtInitRam_iff (S : Sections) :
    (∀ m, (∀ i, i < S.sizeData.toNat → crtInitRam S m (S.dataBegin + BitVec.ofNat 32 i) =
        m (S.romDataBegin + BitVec.ofNat 32 i)) ∧
      (∀ b, S.InBss b → crtInitRam S m b = 0) ∧
      ∀ b, ¬S.InData b → ¬S.InBss b → crtInitRam S m b = m b) ↔
    (∀ b, ¬(S.InData b ∧ S.InBss b)) ∧ (S.dataBegin = S.romDataBegin ∨
      S.sizeData.toNat ≤ (S.dataBegin - S.romDataBegin).toNat) := by
  rw [← copyBytes_eq_iff S.sizeData.isLt.le]
  constructor
  · intro h
    have hdisjoint (b : BitVec 32) : ¬(S.InData b ∧ S.InBss b) := by
      rintro ⟨hdata, hbss⟩
      have hb : S.dataBegin + BitVec.ofNat 32 (b - S.dataBegin).toNat = b := by
        rw [BitVec.ofNat_toNat, BitVec.setWidth_eq, BitVec.add_comm, BitVec.sub_add_cancel]
      have hone := (h fun _ => 1).1 _ hdata
      rw [hb, (h fun _ => 1).2.1 b hbss] at hone
      exact absurd hone (by decide)
    refine ⟨hdisjoint, fun m i hi => ?_⟩
    have hdata : S.InData (S.dataBegin + BitVec.ofNat 32 i) := by
      rwa [Sections.InData, S.inData_add hi]
    rw [← (h m).1 i hi, crtInitRam_of_not fun hbss => hdisjoint _ ⟨hdata, hbss⟩]
  · rintro ⟨hdisjoint, hcopy⟩ m
    refine ⟨fun i hi => ?_, fun b hb => ?_, fun b hdata hbss => ?_⟩
    · have hdata : S.InData (S.dataBegin + BitVec.ofNat 32 i) := by
        rwa [Sections.InData, S.inData_add hi]
      rw [crtInitRam_of_not fun hbss => hdisjoint _ ⟨hdata, hbss⟩]
      exact hcopy m i hi
    · rw [crtInitRam_apply, if_pos hb]
    · rw [crtInitRam_apply, if_neg hbss, if_neg hdata]

/-! ### The constructors -/

/-- `crt_init_ctors` from the table entry `pfn` on, cut off after `fuel` iterations: `call f m` is
the memory after a call of the constructor at `f`. -/
def crtInitCtors (call : BitVec 32 → ByteMemory → ByteMemory) (S : Sections) :
    ℕ → BitVec 32 → ByteMemory → Option ByteMemory
  | fuel, pfn, m =>
    if pfn = S.ctorsEnd then some m
    else match fuel with
      | 0 => none
      | fuel + 1 => crtInitCtors call S fuel (pfn + 4) (call (m.load32 pfn) m)

/-- The addresses in the table of constructors. -/
def Sections.ctors (S : Sections) (m : ByteMemory) : List (BitVec 32) :=
  (List.range ((S.ctorsEnd - S.ctorsBegin).toNat / 4)).map (m.word S.ctorsBegin)

variable {call : BitVec 32 → ByteMemory → ByteMemory} {pfn : BitVec 32} {fuel : ℕ}

theorem crtInitCtors_end (h : pfn = S.ctorsEnd) : crtInitCtors call S fuel pfn m = some m := by
  cases fuel <;> rw [crtInitCtors, if_pos h]

theorem crtInitCtors_succ (h : pfn ≠ S.ctorsEnd) : crtInitCtors call S (fuel + 1) pfn m =
    crtInitCtors call S fuel (pfn + 4) (call (m.load32 pfn) m) := by
  rw [crtInitCtors, if_neg h]

/-- The loop over a table whose entries are `ws`. -/
theorem crtInitCtors_of_words {ws : List (BitVec 32)} (hws : Words m pfn ws)
    (hlen : (S.ctorsEnd - pfn).toNat = 4 * ws.length)
    (hcall : ∀ f m, SameOn pfn (4 * ws.length) m (call f m)) (hfuel : ws.length ≤ fuel) :
    crtInitCtors call S fuel pfn m = some (ws.foldl (fun m f => call f m) m) := by
  induction ws generalizing pfn m fuel with
  | nil =>
    refine crtInitCtors_end ?_
    rw [List.length_nil] at hlen
    bv_omega
  | cons w ws ih =>
    rw [List.length_cons] at hlen hcall hfuel
    have hne : pfn ≠ S.ctorsEnd := by
      rintro rfl
      rw [BitVec.sub_self] at hlen
      exact absurd hlen (by simp)
    obtain ⟨fuel, rfl⟩ := Nat.exists_eq_succ_of_ne_zero (n := fuel) (by omega)
    have hw : m.load32 pfn = w := by simpa [word] using hws 0 (Nat.succ_pos _)
    have hsub (f : BitVec 32) (m : ByteMemory) : SameOn (pfn + 4) (4 * ws.length) m (call f m) := by
      rcases ws with _ | ⟨w', ws⟩
      · exact fun b hb => absurd hb (Nat.not_lt_zero _)
      · rw [List.length_cons] at hlen hcall ⊢
        exact (hcall f m).sub (by bv_omega)
    have hrest : Words m (pfn + 4) ws := by
      intro i hi
      have h := hws (i + 1) (Nat.succ_lt_succ hi)
      rw [List.getElem_cons_succ, Nat.add_comm, ← word_add] at h
      exact h
    rw [Nat.succ_eq_add_one, crtInitCtors_succ hne, hw, List.foldl_cons]
    exact ih (hrest.of_sameOn (hsub w m)) (by bv_omega) hsub (by omega)

/-- The loop does not come to its end if it steps over it. -/
theorem crtInitCtors_eq_none (h : (S.ctorsEnd - pfn).toNat % 4 ≠ 0) :
    crtInitCtors call S fuel pfn m = none := by
  have hne : pfn ≠ S.ctorsEnd := by
    rintro rfl
    simp at h
  induction fuel generalizing pfn m with
  | zero => rw [crtInitCtors, if_neg hne]
  | succ fuel ih =>
    have hnext : (S.ctorsEnd - (pfn + 4)).toNat % 4 ≠ 0 := by bv_omega
    rw [crtInitCtors_succ hne]
    refine ih hnext ?_
    intro heq
    rw [heq] at hnext
    simp at hnext

/-- **When `crt_init_ctors` returns.** Let the constructors leave their table alone, as it is in
ROM. If the size of the table is a multiple of four, then each constructor in it is called once, in
the order of the table, and the function returns. Otherwise it never does. -/
theorem crtInitCtors_iff (hcall : ∀ f m,
    SameOn S.ctorsBegin (S.ctorsEnd - S.ctorsBegin).toNat m (call f m)) (m : ByteMemory) :
    ((S.ctorsEnd - S.ctorsBegin).toNat % 4 = 0 →
      ∀ fuel, (S.ctorsEnd - S.ctorsBegin).toNat / 4 ≤ fuel →
        crtInitCtors call S fuel S.ctorsBegin m =
          some ((S.ctors m).foldl (fun m f => call f m) m)) ∧
    ((S.ctorsEnd - S.ctorsBegin).toNat % 4 ≠ 0 →
      ∀ fuel, crtInitCtors call S fuel S.ctorsBegin m = none) := by
  refine ⟨fun hsize fuel hfuel => ?_, fun hsize fuel => crtInitCtors_eq_none hsize⟩
  have hlen : (S.ctors m).length = (S.ctorsEnd - S.ctorsBegin).toNat / 4 := by simp [Sections.ctors]
  have hmul : 4 * (S.ctors m).length = (S.ctorsEnd - S.ctorsBegin).toNat := by omega
  refine crtInitCtors_of_words (fun i hi => ?_) hmul.symm (hmul ▸ hcall) (hlen ▸ hfuel)
  simp [Sections.ctors]

/-- A table of two constructors, each of which stores to RAM. -/
theorem crtInitCtors_two : ∃ m, crtInitCtors (fun f m => m.store8 0x20000000 (f.setWidth 8))
    ⟨0, 0, 0, 0, 0, 0x08000300, 0x08000308⟩ 2 0x08000300 (fun _ => 7) = some m ∧
      m 0x20000000 = 7 := by
  have hcall (f : BitVec 32) (m : ByteMemory) :
      SameOn 0x08000300 8 m (m.store8 0x20000000 (f.setWidth 8)) := by
    intro b hb
    refine store8_of_ne ?_ _
    rintro rfl
    exact absurd hb (by decide)
  exact ⟨_, (crtInitCtors_iff (S := ⟨0, 0, 0, 0, 0, 0x08000300, 0x08000308⟩) hcall _).1 rfl 2
    (by decide), by decide⟩

/-! ### The start of the machine -/

namespace Image

variable {ι : Type*} (V : Image ι)

/-- The variables of the kernel are in the `.bss` section. -/
def InBss (S : Sections) : Prop :=
  ∀ x : Var ι, (V.var x - S.bssBegin).toNat + x.width ≤ S.sizeBss.toNat

/-- The variables of the kernel are cleared. -/
theorem InBss.sameOn {V : Image ι} (h : V.InBss S) (m : ByteMemory) (x : Var ι) :
    SameOn (V.var x) x.width (fun _ => 0) (crtInitRam S m) := by
  intro b hb
  have hx := h x
  have hbss : S.InBss b := by
    rw [Sections.InBss]
    bv_omega
  rw [crtInitRam_apply, if_pos hbss]

/-- `crt_init_ram` and `OS_Init`, on the processor `c` with what its memory contains at
power-up. -/
def boot (S : Sections) (c : Cpu) (portC : PortC) : Except Fault (Machine ι) :=
  (V.osInit ⟨crtInitRam S c.mem, c.primask, fun _ => 0, portC⟩).map fun s =>
    ⟨⟨{ c with mem := s.mem, primask := s.primask }, none, fun _ => none⟩, s.scs, s.portC, []⟩

/-- The processor before a thread runs: interrupts are enabled, no floating-point context is active,
and an exception has room on the stack of `main`. -/
structure AtReset (c : Cpu) : Prop where
  valid : c.Valid
  room : V.threads.HasRoom none c.sp c.saveSize
  primask : c.primask = false
  lspact : c.lspact = false
  fpca : c.fpca = false

variable {V}

/-- `OS_Init` finds its variables cleared. -/
theorem AtReset.exists_boot {c : Cpu} (hc : V.AtReset c) (hbss : V.InBss S) (portC : PortC) :
    ∃ M₀, V.boot S c portC = .ok M₀ ∧ V.Init M₀ ∧
      (portC = Kernel.reset.portC → M₀.portC = Sys.init.kernel.portC) := by
  obtain ⟨s, hs, -, -, hprimask, hportC⟩ := exists_osInit (V := V)
    (x := ⟨crtInitRam S c.mem, c.primask, fun _ => 0, portC⟩) (hbss.sameOn c.mem) rfl
  refine ⟨⟨⟨{ c with mem := s.mem, primask := s.primask }, none, fun _ => none⟩, s.scs, s.portC,
    []⟩, by rw [boot, hs]; rfl, ?_, hportC⟩
  exact
    { osInit := ⟨_, hbss.sameOn c.mem, rfl, hs⟩
      curr := rfl
      preempted := fun _ => rfl
      valid := hc.valid
      room := hc.room
      primask := hprimask hc.primask
      lspact := hc.lspact
      fpca := hc.fpca
      started := rfl }

variable [DecidableEq ι]

/-- **The machine starts with any contents of RAM.** Let the variables of the kernel be in the
`.bss` section. Whatever the memory contains at power-up, `OS_Init` does not fault, and every run
of the machine from there on is a run of the system, whose kernel state the memory represents. -/
theorem boot_refines {c : Cpu} (hc : V.AtReset c) (hbss : V.InBss S) (portC : PortC) :
    ∃ M₀, V.boot S c portC = .ok M₀ ∧ ∀ es M, Run V.Step M₀ es M →
      ∃ s, Run Sys.Step .init (es.flatMap V.kernelEvents) s ∧ V.Represents M.mcu s.kernel ∧
        s.kernel.osCurr = M.core.curr.map V.ptr := by
  obtain ⟨M₀, hM₀, hinit, -⟩ := hc.exists_boot hbss portC
  refine ⟨M₀, hM₀, fun es M hr => ?_⟩
  obtain ⟨t, ht, h⟩ := hinit.refines.run hr
  exact ⟨t, ht, h.represents, h.osCurr⟩

/-- The variables of three threads at the beginning of RAM. -/
def exampleSections : Sections where
  romDataBegin := 0x08002000
  dataBegin := 0x20000000
  dataEnd := 0x20000000
  bssBegin := 0x20000000
  bssEnd := 0x20001400
  ctorsBegin := 0x08000300
  ctorsEnd := 0x08000300

theorem inBss_example : exampleImage.InBss exampleSections := by
  intro x
  cases x with
  | osThread i =>
    revert i
    decide
  | sp t | prio t | timeOut t =>
    revert t
    decide
  | _ => decide

theorem exampleCpu_atReset (mem : ByteMemory) :
    exampleImage.AtReset { exampleCpu with mem } where
  valid := show exampleCpu.Valid from ⟨rfl, rfl, rfl⟩
  room := show exampleImage.threads.HasRoom none 0x20000800 0x40 by decide
  primask := rfl
  lspact := rfl
  fpca := rfl

/-- All bytes of RAM are `0xFF` at power-up. -/
theorem boot_refines_ones : ∃ M₀, exampleImage.boot exampleSections
      { exampleCpu with mem := fun _ => 0xFF } ⟨false, 0⟩ = .ok M₀ ∧
    ∀ es M, Run exampleImage.Step M₀ es M →
      ∃ s, Run Sys.Step .init (es.flatMap exampleImage.kernelEvents) s ∧
        exampleImage.Represents M.mcu s.kernel ∧
        s.kernel.osCurr = M.core.curr.map exampleImage.ptr := by
  exact boot_refines (exampleCpu_atReset _) inBss_example _

end Image

end LiteRTOS
