import LiteRTOS.Core.Cpu
import Mathlib.Logic.Function.Basic

/-!
# The instructions of `PendSV_Handler`

`PendSV_Handler` is written in assembly. Its instructions are executed here one after the other on
the state of the processor, from the exception entry to the exception return by `BX lr`.

## Main definitions

* `Instr`, `Instr.exec`, `exec`: the instructions that the handler uses, and their execution.
* `pendSVHandlerCode`: the instructions of the handler, for given addresses of `OS_Curr` and
  `OS_Next`.
* `pendSVExit`, `pendSV`: the processor when it reaches `BX lr`, and after the return.
* `unstack`: the context that the handler and the exception return take from a saved block.

## Main results

* `pendSV_eq`: the effect of the handler, in terms of what it saves and of `unstack`.
* `lr_pendSVExit`: the handler leaves with the EXC_RETURN value of its own entry.
-/

namespace LiteRTOS

open ByteMemory

/-! ### Instructions -/

/-- The labels of `PendSV_Handler`. -/
inductive Label
  /-- `PendSV_restore`. -/
  | pendSVRestore
  deriving DecidableEq

/-- The instructions of `PendSV_Handler`. -/
inductive Instr
  /-- `CPSID I`. -/
  | cpsidI
  /-- `CPSIE I`. -/
  | cpsieI
  /-- `LDR rt,=a`. -/
  | ldrLiteral (rt : Fin 13) (a : BitVec 32)
  /-- `LDR rt,[rn,#offset]`. -/
  | ldr (rt rn : Fin 13) (offset : BitVec 32)
  /-- `STR rt,[rn,#offset]`. -/
  | str (rt rn : Fin 13) (offset : BitVec 32)
  /-- `CMP rn,#imm`. -/
  | cmp (rn : Fin 13) (imm : BitVec 32)
  /-- `BEQ l`, a branch forward. -/
  | beq (l : Label)
  /-- `l:`. -/
  | label (l : Label)
  /-- `PUSH {rs}`, the registers in ascending order. -/
  | push (rs : List (Fin 13))
  /-- `POP {rs}`, the registers in ascending order. -/
  | pop (rs : List (Fin 13))
  /-- `MOV rd,sp`. -/
  | movFromSp (rd : Fin 13)
  /-- `MOV sp,rm`. -/
  | movToSp (rm : Fin 13)
  /-- `BX lr`. -/
  | bxLr
  deriving DecidableEq

/-- The flags N, Z, C and V of the comparison of `a` and `b`. -/
def compareFlags (a b : BitVec 32) : BitVec 32 :=
  (if (a - b).msb then 1#32 <<< 31 else 0) ||| (if a = b then 1#32 <<< 30 else 0) |||
    (if b ≤ a then 1#32 <<< 29 else 0) ||| (if a.ssubOverflow b then 1#32 <<< 28 else 0)

/-- `rd := v`. -/
def Cpu.setReg (c : Cpu) (rd : Fin 13) (v : BitVec 32) : Cpu :=
  { c with r := Function.update c.r rd v }

/-- The execution of one instruction, branches apart. -/
def Instr.exec : Instr → Cpu → Cpu
  | .cpsidI, c => { c with primask := true }
  | .cpsieI, c => { c with primask := false }
  | .ldrLiteral rt a, c => c.setReg rt a
  | .ldr rt rn offset, c => c.setReg rt (load32 c.mem (c.r rn + offset))
  | .str rt rn offset, c => { c with mem := store32 c.mem (c.r rn + offset) (c.r rt) }
  | .cmp rn imm, c => { c with xpsr := (c.xpsr &&& 0x0FFFFFFF) ||| compareFlags (c.r rn) imm }
  | .beq _, c => c
  | .label _, c => c
  | .push rs, c =>
    let sp := c.sp - BitVec.ofNat 32 (4 * rs.length)
    { c with sp, mem := storeWords c.mem sp (rs.map c.r) }
  | .pop rs, c =>
    { c with
      r := fun i => if i ∈ rs then word c.mem c.sp (rs.idxOf i) else c.r i
      sp := c.sp + BitVec.ofNat 32 (4 * rs.length) }
  | .movFromSp rd, c => c.setReg rd c.sp
  | .movToSp rm, c => { c with sp := c.r rm &&& ~~~3#32 }
  | .bxLr, c =>
    if c.lr >>> 28 = 0xF then c.exceptionReturn c.lr else { c with pc := c.lr &&& ~~~1#32 }

/-- The label that a branch jumps to. -/
def Instr.target : Instr → Cpu → Option Label
  | .beq l, c => if c.xpsr.getLsbD 30 then some l else none
  | _, _ => none

/-- One instruction of a program: after a branch the instructions up to its label are passed
over. -/
def Instr.step (s : Option Label × Cpu) (i : Instr) : Option Label × Cpu :=
  match s with
  | (some l, c) => (if i = .label l then none else some l, c)
  | (none, c) => (i.target c, i.exec c)

/-- The execution of a program. -/
def exec (is : List Instr) (c : Cpu) : Cpu := (is.foldl Instr.step (none, c)).2

/-! ### `PendSV_Handler` -/

/-- R4 to R11. -/
def highRegs : List (Fin 13) := [4, 5, 6, 7, 8, 9, 10, 11]

section Handler

variable (osCurr osNext : BitVec 32)

/-- `PendSV_Handler` up to `PendSV_restore`. -/
def pendSVSave : List Instr :=
  [ .cpsidI,
    .ldrLiteral 1 osCurr,
    .ldr 1 1 0x00,
    .cmp 1 0,
    .beq .pendSVRestore,
    .push highRegs,
    .ldrLiteral 1 osCurr,
    .ldr 1 1 0x00,
    .movFromSp 0,
    .str 0 1 0x00 ]

/-- `PendSV_Handler` from `PendSV_restore` up to `BX lr`. -/
def pendSVRestore : List Instr :=
  [ .label .pendSVRestore,
    .ldrLiteral 1 osNext,
    .ldr 1 1 0x00,
    .ldr 0 1 0x00,
    .movToSp 0,
    .ldrLiteral 1 osNext,
    .ldr 1 1 0x00,
    .ldrLiteral 2 osCurr,
    .str 1 2 0x00,
    .pop highRegs,
    .cpsieI ]

/-- `PendSV_Handler`. -/
def pendSVHandlerCode : List Instr := pendSVSave osCurr ++ pendSVRestore osCurr osNext ++ [.bxLr]

/-- The processor when `PendSV_Handler`, entered from the thread state `c`, reaches `BX lr`. -/
def pendSVExit (c : Cpu) : Cpu :=
  exec (pendSVSave osCurr ++ pendSVRestore osCurr osNext) c.exceptionEntry

/-- The processor after a run of `PendSV_Handler` entered from the thread state `c`. -/
def pendSV (c : Cpu) : Cpu := exec (pendSVHandlerCode osCurr osNext) c.exceptionEntry

end Handler

/-- The position in a saved block of R0 to R12: R4 to R11 come first, then the frame. -/
def savePos (i : Fin 13) : ℕ := if i < 4 then 8 + i else if i = 12 then 12 else i - 4

/-- The context in the 16 words saved at `p`, with SP above the frame that is popped. -/
def unstack (m : ByteMemory) (p : BitVec 32) (extended : Bool) : Context where
  r := fun i => word m p (savePos i)
  sp := (p + 0x20 + frameSize extended) ||| if (word m p 15).getLsbD 9 then 4 else 0
  lr := word m p 13
  pc := word m p 14 &&& ~~~1#32
  xpsr := word m p 15 &&& ~~~(1#32 <<< 9)

/-! ### The two halves of the handler -/

theorem getLsbD_compareFlags (x a b : BitVec 32) :
    ((x &&& 0x0FFFFFFF) ||| compareFlags a b).getLsbD 30 = decide (a = b) := by
  have hflag (p : Prop) [Decidable p] (k : ℕ) :
      (if p then 1#32 <<< k else 0).getLsbD 30 = (decide p && (1#32 <<< k).getLsbD 30) := by
    split_ifs with hp <;> simp [hp]
  simp only [compareFlags, BitVec.getLsbD_or, hflag]
  simp

section Handler

variable (osCurr osNext : BitVec 32) (c : Cpu)

/-- The registers that the second half pops. -/
theorem idxOf_highRegs :
    ∀ i : Fin 13, ¬i < 4 → i ≠ 12 → i ∈ highRegs ∧ highRegs.idxOf i = (i : ℕ) - 4 := by
  decide

theorem foldl_pendSVRestore {t p : BitVec 32} (ht : load32 c.mem osNext = t)
    (hp : load32 c.mem t &&& ~~~3#32 = p) :
    ∃ r : Fin 13 → BitVec 32, (∀ i ∈ highRegs,
        r i = word (store32 c.mem osCurr t) p (highRegs.idxOf i)) ∧
      (pendSVRestore osCurr osNext).foldl Instr.step (none, c) = (none,
        { c with r, sp := p + 0x20, primask := false, mem := store32 c.mem osCurr t }) := by
  subst ht hp
  refine ⟨fun i => if i ∈ highRegs then word _ _ (highRegs.idxOf i) else
    ((((((c.setReg 1 osNext).setReg 1 (load32 c.mem osNext)).setReg 0
      (load32 c.mem (load32 c.mem osNext))).setReg 1 osNext).setReg 1
      (load32 c.mem osNext)).setReg 2 osCurr).r i, fun i hi => if_pos hi, ?_⟩
  simp only [pendSVRestore, List.foldl_cons, List.foldl_nil, Instr.step, Instr.target, Instr.exec,
    Cpu.setReg, BitVec.ofNat_eq_ofNat, BitVec.add_zero, Function.update_self]
  rfl

/-- The memory after the first half: if there is a current thread, R4 to R11 are pushed and SP is
stored in its control block. -/
def savedMem : ByteMemory :=
  if load32 c.mem osCurr = 0 then c.mem
  else
    let sp := c.sp - 0x20
    let m := storeWords c.mem sp (highRegs.map c.r)
    store32 m (load32 m osCurr) sp

/-- The processor at the branch of the first half. -/
def pendSVCheck : Cpu :=
  (Instr.cmp 1 0).exec ((Instr.ldr 1 1 0x00).exec ((Instr.ldrLiteral 1 osCurr).exec
    (Instr.cpsidI.exec c)))

theorem target_pendSVCheck : (Instr.beq .pendSVRestore).target (pendSVCheck osCurr c) =
    if load32 c.mem osCurr = 0 then some .pendSVRestore else none := by
  have hxpsr : (pendSVCheck osCurr c).xpsr =
      (c.xpsr &&& 0x0FFFFFFF) ||| compareFlags (load32 c.mem osCurr) 0 := by
    simp [pendSVCheck, Instr.exec, Cpu.setReg]
  rw [Instr.target, hxpsr, getLsbD_compareFlags]
  simp only [decide_eq_true_eq]

/-- The processor at the end of the first half, if it does not branch. -/
def pendSVStore : Cpu :=
  (Instr.str 0 1 0x00).exec ((Instr.movFromSp 0).exec ((Instr.ldr 1 1 0x00).exec
    ((Instr.ldrLiteral 1 osCurr).exec ((Instr.push highRegs).exec (pendSVCheck osCurr c)))))

theorem mem_pendSVStore (h : load32 c.mem osCurr ≠ 0) :
    (pendSVStore osCurr c).mem = savedMem osCurr c := by
  have hregs : highRegs.map (pendSVCheck osCurr c).r = highRegs.map c.r := by
    simp [pendSVCheck, Instr.exec, Cpu.setReg, highRegs]
  rw [savedMem, if_neg h, ← hregs]
  simp [pendSVStore, Instr.exec, Cpu.setReg]
  rfl

/-- The first half changes registers, the flags and the memory, whether or not it branches. -/
theorem foldl_pendSVSave : ∃ (l : Option Label) (r : Fin 13 → BitVec 32) (sp x : BitVec 32),
    (pendSVSave osCurr).foldl Instr.step (none, c) =
      (l, { c with r, sp, xpsr := x, primask := true, mem := savedMem osCurr c }) := by
  have hfold : (pendSVSave osCurr).foldl Instr.step (none, c) =
      ((pendSVSave osCurr).drop 5).foldl Instr.step
        ((Instr.beq .pendSVRestore).target (pendSVCheck osCurr c), pendSVCheck osCurr c) := rfl
  rw [hfold, target_pendSVCheck]
  by_cases h : load32 c.mem osCurr = 0
  · refine ⟨some .pendSVRestore, (pendSVCheck osCurr c).r, c.sp, (pendSVCheck osCurr c).xpsr, ?_⟩
    rw [if_pos h, savedMem, if_pos h]
    rfl
  · refine ⟨none, (pendSVStore osCurr c).r, (pendSVStore osCurr c).sp,
      (pendSVStore osCurr c).xpsr, ?_⟩
    rw [if_neg h, ← mem_pendSVStore osCurr c h]
    rfl

theorem foldl_pendSVRestore_label (l : Option Label) :
    (pendSVRestore osCurr osNext).foldl Instr.step (l, c) =
      (pendSVRestore osCurr osNext).foldl Instr.step (none, c) := by
  rcases l with _ | ⟨_⟩ <;> rfl

/-- The handler up to `BX lr`. -/
theorem exists_pendSVExit {t p : BitVec 32}
    (ht : load32 (savedMem osCurr c.exceptionEntry) osNext = t)
    (hp : load32 (savedMem osCurr c.exceptionEntry) t &&& ~~~3#32 = p) :
    ∃ (r : Fin 13 → BitVec 32) (x : BitVec 32), (∀ i ∈ highRegs,
        r i = word (store32 (savedMem osCurr c.exceptionEntry) osCurr t) p (highRegs.idxOf i)) ∧
      (pendSVSave osCurr ++ pendSVRestore osCurr osNext).foldl Instr.step (none, c.exceptionEntry) =
        (none, { c.exceptionEntry with
          r, sp := p + 0x20, xpsr := x, primask := false
          mem := store32 (savedMem osCurr c.exceptionEntry) osCurr t }) := by
  obtain ⟨l, r₁, sp, x, hsave⟩ := foldl_pendSVSave osCurr c.exceptionEntry
  obtain ⟨r, hr, hrestore⟩ := foldl_pendSVRestore osCurr osNext
    { c.exceptionEntry with
      r := r₁, sp, xpsr := x, primask := true, mem := savedMem osCurr c.exceptionEntry } ht hp
  refine ⟨r, x, hr, ?_⟩
  rw [List.foldl_append, hsave, foldl_pendSVRestore_label, hrestore]

/-- The handler leaves with the EXC_RETURN value of its own entry. -/
theorem lr_pendSVExit : (pendSVExit osCurr osNext c).lr = excReturn c.fpca := by
  obtain ⟨r, x, -, h⟩ := exists_pendSVExit osCurr osNext c rfl rfl
  rw [pendSVExit, exec, h]
  rfl

/-- The effect of the handler: it saves the registers of the current thread, makes the next thread
the current one and takes its registers from the block that its control block points to. -/
theorem pendSV_eq {t p : BitVec 32} {m : ByteMemory}
    (ht : load32 (savedMem osCurr c.exceptionEntry) osNext = t)
    (hp : load32 (savedMem osCurr c.exceptionEntry) t &&& ~~~3#32 = p)
    (hm : store32 (savedMem osCurr c.exceptionEntry) osCurr t = m) :
    pendSV osCurr osNext c =
      { toContext := unstack m p c.fpca
        primask := false
        fpca := c.fpca
        lspen := c.lspen
        lspact := false
        s := fun i => if c.fpca && !c.lspen && i < 16 then word m p (16 + i) else c.s i
        fpscr := if c.fpca && !c.lspen then word m p 32 else c.fpscr
        mem := m } := by
  obtain ⟨r, x, hr, h⟩ := exists_pendSVExit osCurr osNext c ht hp
  rw [hm] at hr h
  have hreturn : excReturn c.fpca >>> 28 = 0xF#32 := by
    cases c.fpca <;> rfl
  have hword (k : ℕ) : word m (p + 0x20) k = word m p (8 + k) := word_add m p 8 k
  have hregs (i : Fin 13) : (if i < 4 then word m p (8 + i) else
      if i = 12 then word m p 12 else r i) = word m p (savePos i) := by
    rw [savePos]
    split_ifs with h₁ h₂
    · rfl
    · rfl
    · obtain ⟨hmem, hidx⟩ := idxOf_highRegs i h₁ h₂
      rw [hr i hmem, hidx]
  rw [pendSV, exec, pendSVHandlerCode, List.foldl_append, h]
  change (if excReturn c.fpca >>> 28 = 0xF#32 then
    Cpu.exceptionReturn (excReturn c.fpca) _ else _) = _
  rw [if_pos hreturn, Cpu.exceptionReturn]
  simp only [namesExtended_excReturn, hword, hregs, unstack]
  rcases hfpca : c.fpca with _ | _ <;> simp [Cpu.exceptionEntry, hfpca, ← Nat.add_assoc]

end Handler

/-! ### The saved block -/

namespace Cpu

variable (c : Cpu)

/-- The address of the saved block: the frame of the processor, and R4 to R11 below it. -/
def savePtr : BitVec 32 := c.framePtr - 0x20

/-- The size in bytes of the saved block. -/
def saveSize : ℕ := 0x20 + (frameSize c.fpca).toNat

/-- The memory after the frame and R4 to R11 have been pushed. -/
def pushedMem : ByteMemory := storeWords c.exceptionEntry.mem c.savePtr (highRegs.map c.r)

theorem savePtr_add : c.savePtr + BitVec.ofNat 32 (4 * 8) = c.framePtr := by
  rw [savePtr]
  exact BitVec.sub_add_cancel ..

theorem savePtr_eq : c.savePtr = (c.sp &&& ~~~4#32) - BitVec.ofNat 32 c.saveSize := by
  rw [savePtr, framePtr_eq, saveSize, BitVec.ofNat_add, BitVec.ofNat_toNat, BitVec.setWidth_eq]
  bv_omega

theorem length_basicFrame : c.basicFrame.length = 8 := rfl

theorem length_fpFrame : c.fpFrame.length = 17 := by simp [fpFrame]

theorem getElem?_fpFrame {i : Fin 32} (hi : i < 16) : c.fpFrame[(i : ℕ)]? = some (c.s i) := by
  have hlt : (i : ℕ) < 16 := hi
  rw [fpFrame, List.getElem?_append_left (by simpa using hlt), List.getElem?_ofFn, dif_pos hlt]
  rfl

theorem mem_exceptionEntry : c.exceptionEntry.mem =
    if c.fpca && !c.lspen then
      storeWords (storeWords c.mem c.framePtr c.basicFrame) (c.framePtr + 0x20) c.fpFrame
    else storeWords c.mem c.framePtr c.basicFrame := rfl

variable {c} {b : BitVec 32} {n : ℕ}

/-- The exception entry writes the saved block only. -/
theorem sameOn_exceptionEntry (h : BlocksApart c.savePtr c.saveSize b n) :
    SameOn b n c.mem c.exceptionEntry.mem := by
  have hbasic : SameOn b n c.mem (storeWords c.mem c.framePtr c.basicFrame) := by
    refine sameOn_storeWords (by simp [length_basicFrame]) (h.sub (by simp [length_basicFrame]) ?_)
    have hsize := le_frameSize c.fpca
    rw [length_basicFrame, savePtr, saveSize]
    bv_omega
  rw [mem_exceptionEntry]
  split_ifs with hfp
  · have hfpca : c.fpca = true := (Bool.and_eq_true_iff.mp hfp).1
    refine hbasic.trans (sameOn_storeWords (by simp [length_fpFrame])
      (h.sub (by simp [length_fpFrame]) ?_))
    rw [length_fpFrame, savePtr, saveSize, hfpca, show (frameSize true).toNat = 0x68 from rfl]
    bv_omega
  · exact hbasic

theorem sameOn_pushedMem (h : BlocksApart c.savePtr c.saveSize b n) :
    SameOn b n c.mem c.pushedMem := by
  have hlow : BlocksApart c.savePtr 0x20 b n := by
    refine h.sub (by omega) ?_
    rw [saveSize]
    bv_omega
  exact (sameOn_exceptionEntry h).trans (sameOn_storeWords (by simp [highRegs]) hlow)

variable (c)

/-- R4 to R11 are pushed below the frame. -/
theorem sameOn_push {k : ℕ} (hk : k ≤ 0x100) :
    SameOn c.framePtr k c.exceptionEntry.mem c.pushedMem := by
  refine sameOn_storeWords (by simp [highRegs]) ?_
  rw [savePtr]
  simp only [highRegs, List.length_map, List.length_cons, List.length_nil]
  constructor <;> bv_omega

theorem words_pushedMem : Words c.pushedMem c.savePtr (highRegs.map c.r ++ c.basicFrame) := by
  have hentry : Words c.exceptionEntry.mem c.framePtr c.basicFrame := by
    have hbasic : Words (storeWords c.mem c.framePtr c.basicFrame) c.framePtr c.basicFrame :=
      words_storeWords (by simp [length_basicFrame])
    rw [mem_exceptionEntry]
    split_ifs
    · refine hbasic.of_sameOn (sameOn_storeWords (by simp [length_fpFrame]) ?_)
      rw [length_fpFrame, length_basicFrame]
      constructor <;> bv_omega
    · exact hbasic
  refine Words.append (words_storeWords (by simp [highRegs])) ?_
  rw [List.length_map, show highRegs.length = 8 from rfl, savePtr_add]
  exact hentry.of_sameOn (c.sameOn_push (by simp [length_basicFrame]))

theorem words_fpFrame (hfpca : c.fpca = true) (hlspen : c.lspen = false) :
    Words c.pushedMem (c.savePtr + BitVec.ofNat 32 (4 * 16)) c.fpFrame := by
  have haddr : c.savePtr + BitVec.ofNat 32 (4 * 16) = c.framePtr + 0x20 := by
    rw [savePtr]
    bv_omega
  have hentry : Words c.exceptionEntry.mem (c.framePtr + 0x20) c.fpFrame := by
    rw [mem_exceptionEntry, if_pos (by simp [hfpca, hlspen])]
    exact words_storeWords (by simp [length_fpFrame])
  rw [haddr]
  refine hentry.of_sameOn ((c.sameOn_push (k := 0x100) (by omega)).sub ?_)
  rw [length_fpFrame]
  bv_omega

end Cpu

theorem unstack_r {m : ByteMemory} {p : BitVec 32} {ws : List (BitVec 32)} {f : Fin 13 → BitVec 32}
    (h : Words m p ws) (hf : ∀ i, ws[savePos i]? = some (f i)) (extended : Bool) :
    (unstack m p extended).r = f := by
  funext i
  exact h.eq_of_getElem? (hf i)

/-- A saved block is read in the same way where its 64 bytes are the same. -/
theorem unstack_congr {m m' : ByteMemory} {p : BitVec 32} (h : SameOn p 0x40 m m')
    (extended : Bool) : unstack m' p extended = unstack m p extended := by
  have hword {i : ℕ} (hi : i < 16) : word m' p i = word m p i := h.word_eq (by omega)
  have hpos : ∀ i, savePos i < 16 := by decide
  have hr : (fun i => word m' p (savePos i)) = fun i => word m p (savePos i) := by
    funext i
    exact hword (hpos i)
  simp only [unstack, hr, hword (show 13 < 16 by omega), hword (show 14 < 16 by omega),
    hword (show 15 < 16 by omega)]

/-- What has been saved is taken back. -/
theorem unstack_of_words {c : Cpu} {m : ByteMemory} (hvalid : c.Valid)
    (h : Words m c.savePtr (highRegs.map c.r ++ c.basicFrame)) :
    unstack m c.savePtr c.fpca = c.toContext := by
  have hpsr : word m c.savePtr 15 = c.stackedPsr := h.eq_of_getElem? rfl
  have hpos : ∀ i, (highRegs ++ [0, 1, 2, 3, 12])[savePos i]? = some i := by decide
  refine Context.ext (unstack_r h (fun i => ?_) _) ?_ ?_ ?_ ?_
  · have hregs : highRegs.map c.r ++ c.basicFrame =
        (highRegs ++ [0, 1, 2, 3, 12]).map c.r ++ [c.lr, c.pc, c.stackedPsr] := rfl
    have hlt : savePos i < (highRegs ++ [0, 1, 2, 3, 12]).length :=
      (List.getElem?_eq_some_iff.mp (hpos i)).1
    rw [hregs, List.getElem?_append_left (by rwa [List.length_map]), List.getElem?_map, hpos]
    rfl
  · rw [unstack, hpsr, Cpu.savePtr, show c.framePtr - 0x20 + 0x20 = c.framePtr from
      BitVec.sub_add_cancel ..]
    exact c.sp_framePtr
  · exact h.eq_of_getElem? rfl
  · have hpc : word m c.savePtr 14 = c.pc := h.eq_of_getElem? rfl
    rw [unstack, hpc]
    exact hvalid.pc
  · rw [unstack, hpsr, Context.stackedPsr_and]
    exact hvalid.xpsr

end LiteRTOS
