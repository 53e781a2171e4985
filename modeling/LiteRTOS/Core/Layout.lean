import LiteRTOS.Core.ThreadStart

/-!
# The placement of the variables and the stacks in memory

The variables of the kernel that `PendSV_Handler` uses, the pointers at the start of the thread
control blocks and the stacks are different objects. Each thread is started with a storage of its
own, and `main` runs on a stack of its own.

## Main definitions

* `Layout`: the placement of the variables and of the stacks.
* `Layout.HasRoom`: the place on a stack for a saved block.
* `Layout.setUp`: the calls of `OSThread_Start` for a list of threads.
* `Layout.Started`: a thread is set up.

## Main results

* `Layout.start_comm`: the set-ups of two threads can be made in any order.
* `Layout.exists_setUp`: the set-up of any list of threads ends with all of them set up.
-/

namespace LiteRTOS

open ByteMemory

/-- The addresses of `OS_Curr` and `OS_Next`, of the control blocks and of the stack storages of
the threads `ι`. The storage `none` is the stack of `main`. The objects have no byte in common, and
there is room for the first sixteen words on each thread's stack. -/
structure Layout (ι : Type*) where
  osCurr : BitVec 32
  osNext : BitVec 32
  tcb : ι → BitVec 32
  handler : ι → BitVec 32
  stkStorage : Option ι → BitVec 32
  stkSize : Option ι → BitVec 32
  tcb_ne_zero : ∀ t, tcb t ≠ 0
  curr_next : Apart osCurr osNext
  curr_tcb : ∀ t, Apart osCurr (tcb t)
  next_tcb : ∀ t, Apart osNext (tcb t)
  tcb_tcb : ∀ t u, t ≠ u → Apart (tcb t) (tcb u)
  stack_curr : ∀ o, BlocksApart (stkStorage o) (stkSize o).toNat osCurr 4
  stack_next : ∀ o, BlocksApart (stkStorage o) (stkSize o).toNat osNext 4
  stack_tcb : ∀ o t, BlocksApart (stkStorage o) (stkSize o).toNat (tcb t) 4
  stack_stack : ∀ o o', o ≠ o' →
    BlocksApart (stkStorage o) (stkSize o).toNat (stkStorage o') (stkSize o').toNat
  stack_pos : ∀ t, 0 < (stkStorage (some t)).toNat
  stack_end : ∀ t, (stkStorage (some t)).toNat + (stkSize (some t)).toNat < 2 ^ 32
  stack_room : ∀ t, (stkStorage (some t)).toNat + 0x40 ≤
    (stackTop (stkStorage (some t)) (stkSize (some t))).toNat

namespace Layout

variable {ι : Type*} (L : Layout ι)

/-! ### Stacks -/

/-- The end of the storage of `t`, rounded down to 8 bytes. -/
def top (t : ι) : BitVec 32 := stackTop (L.stkStorage (some t)) (L.stkSize (some t))

/-- With the stack pointer `sp` on the stack of `o`, a block of `n` bytes can be saved, the word
that aligns it included. -/
def HasRoom (o : Option ι) (sp : BitVec 32) (n : ℕ) : Prop :=
  n + 4 * (sp.toNat / 4 % 2) ≤ (sp - L.stkStorage o).toNat ∧
    (sp - L.stkStorage o).toNat ≤ (L.stkSize o).toNat

instance (o : Option ι) (sp : BitVec 32) (n : ℕ) : Decidable (L.HasRoom o sp n) :=
  inferInstanceAs (Decidable (_ ∧ _))

/-- The number of bytes of the stack of `o` at and above `sp`. -/
def above (o : Option ι) (sp : BitVec 32) : ℕ :=
  (L.stkSize o).toNat - (sp - L.stkStorage o).toNat

theorem toNat_top (t : ι) : (L.top t).toNat =
    ((L.stkStorage (some t)).toNat + (L.stkSize (some t)).toNat) / 8 * 8 :=
  toNat_stackTop (L.stack_end t)

theorem hasRoom_top (t : ι) : L.HasRoom (some t) (L.top t) 0x40 := by
  have htop := L.toNat_top t
  have hend := L.stack_end t
  have hroom : _ ≤ (L.top t).toNat := L.stack_room t
  have hsub : (L.top t - L.stkStorage (some t)).toNat =
      (L.top t).toNat - (L.stkStorage (some t)).toNat := by
    bv_omega
  rw [HasRoom, hsub]
  omega

variable {L}

/-- The block that is saved lies in the storage. -/
theorem HasRoom.sub {o : Option ι} {sp : BitVec 32} {n : ℕ} (h : L.HasRoom o sp n) :
    ((sp &&& ~~~4#32) - BitVec.ofNat 32 n - L.stkStorage o).toNat + n ≤ (L.stkSize o).toNat := by
  obtain ⟨hlow, hhigh⟩ := h
  rw [toNat_saveBlock_sub hlow]
  omega

/-- The block that is saved lies below the stack pointer. -/
theorem HasRoom.apart {o : Option ι} {sp : BitVec 32} {n : ℕ} (h : L.HasRoom o sp n)
    (hn : 0 < n) : BlocksApart ((sp &&& ~~~4#32) - BitVec.ofNat 32 n) n sp (L.above o sp) := by
  obtain ⟨hlow, hhigh⟩ := h
  have hdist := toNat_saveBlock_sub hlow
  rw [above]
  generalize (sp &&& ~~~4#32) - BitVec.ofNat 32 n = p at hdist ⊢
  have hup : sp - p = (sp - L.stkStorage o) - (p - L.stkStorage o) := by
    clear hdist hlow hhigh
    bv_omega
  have hdown : p - sp = (p - L.stkStorage o) - (sp - L.stkStorage o) := by
    clear hdist hlow hhigh hup
    bv_omega
  rw [BlocksApart, hup, hdown]
  generalize sp - L.stkStorage o = x at hdist hlow hhigh ⊢
  generalize p - L.stkStorage o = y at hdist ⊢
  constructor <;> bv_omega

/-- The stack at and above the stack pointer lies in the storage. -/
theorem HasRoom.above_sub {o : Option ι} {sp : BitVec 32} {n : ℕ} (h : L.HasRoom o sp n) :
    (sp - L.stkStorage o).toNat + L.above o sp ≤ (L.stkSize o).toNat := by
  have hhigh := h.2
  rw [above]
  omega

/-- The words pushed first on the stack of a thread lie in its storage. -/
theorem top_sub (t : ι) : (L.top t - 0x40 - L.stkStorage (some t)).toNat + 0x40 ≤
    (L.stkSize (some t)).toNat := by
  have htop := L.toNat_top t
  have hend := L.stack_end t
  have hroom : _ ≤ (L.top t).toNat := L.stack_room t
  bv_omega

/-! ### The set-up of the threads -/

variable (L) in
/-- `OSThread_Start` for the thread `t`, up to its registration. -/
def start (t : ι) (m : ByteMemory) : Except Fault ByteMemory :=
  osThreadStartStack (L.tcb t) (L.handler t) (L.stkStorage (some t)) (L.stkSize (some t)) m

variable (L) in
/-- The calls of `OSThread_Start` for the threads `ts`. -/
def setUp (ts : List ι) (m : ByteMemory) : Except Fault ByteMemory :=
  ts.foldlM (fun m t => L.start t m) m

variable (L) in
/-- The registers with which the thread `t` starts. -/
def startContext (t : ι) : Context :=
  LiteRTOS.startContext (L.handler t) (L.stkStorage (some t)) (L.stkSize (some t))

/-- The control block of `t` points to a saved block with the registers that `t` starts with. -/
structure Started (L : Layout ι) (m : ByteMemory) (t : ι) : Prop where
  tcb : load32 m (L.tcb t) = L.top t - 0x40
  context : unstack m (L.top t - 0x40) false = L.startContext t

/-- A thread that is set up remains so where its pointer and its storage do not change. -/
theorem Started.of_sameOn {m m' : ByteMemory} {t : ι} (h : L.Started m t)
    (htcb : SameOn (L.tcb t) 4 m m')
    (hstack : SameOn (L.stkStorage (some t)) (L.stkSize (some t)).toNat m m') :
    L.Started m' t where
  tcb := htcb.load32_eq.trans h.tcb
  context := (unstack_congr (hstack.sub (top_sub t)) false).trans h.context

variable (L)

/-- One call of `OSThread_Start` sets up its thread and leaves the others alone. -/
theorem exists_start (t : ι) (m : ByteMemory) : ∃ m', L.start t m = .ok m' ∧ L.Started m' t ∧
    load32 m' L.osCurr = load32 m L.osCurr ∧ ∀ u, L.Started m u → L.Started m' u := by
  obtain ⟨m', hm', htcb, hwords, hsame⟩ := exists_osThreadStartStack (L.handler t)
    (L.stack_pos t) (L.stack_end t) (L.stack_room t) (L.stack_tcb (some t) t) m
  have hstarted : L.Started m' t := ⟨htcb, unstack_of_initialWords rfl hwords⟩
  refine ⟨m', hm', hstarted, ?_, fun u hu => ?_⟩
  · exact (hsame _ _ (L.stack_curr _) (L.curr_tcb t).symm).load32_eq
  · by_cases htu : t = u
    · exact htu ▸ hstarted
    · have hne : some t ≠ some u := fun h => htu (Option.some.inj h)
      exact hu.of_sameOn (hsame _ _ (L.stack_tcb _ u) (L.tcb_tcb t u htu))
        (hsame _ _ (L.stack_stack _ _ hne) (L.stack_tcb _ t).symm)

/-- One call of `OSThread_Start` makes stores to the pointer of its thread and to its storage, the
same ones in every memory. -/
theorem exists_stores (t : ι) : ∃ ws, (∀ m, L.start t m = .ok (storeAll m ws)) ∧
    ∀ w ∈ ws, w.1 = L.tcb t ∨
      (w.1 - L.stkStorage (some t)).toNat + 4 ≤ (L.stkSize (some t)).toNat := by
  have hroom := L.stack_room t
  have hend := L.stack_end t
  have htop := toNat_stackTop hend
  obtain ⟨as, has, hlen⟩ := exists_prefill_start (L.stkStorage (some t)) (L.stkSize (some t))
    (L.stack_pos t) (by omega)
  exact ⟨_, osThreadStartStack_eq (L.tcb t) (L.handler t) has hlen,
    fun w hw => mem_startStores hroom (L.stack_pos t) hend has hw⟩

/-- The calls for two threads write to different words and can be made in any order. -/
theorem start_comm {t u : ι} (h : t ≠ u) (m : ByteMemory) :
    (do L.start u (← L.start t m)) = (do L.start t (← L.start u m)) := by
  obtain ⟨ws, hws, hmem⟩ := L.exists_stores t
  obtain ⟨vs, hvs, hmem'⟩ := L.exists_stores u
  have hsome : some t ≠ some u := fun hsome => h (Option.some.inj hsome)
  have hapart (w) (hw : w ∈ ws) (w') (hw' : w' ∈ vs) : Apart w.1 w'.1 := by
    rcases hmem w hw with hw | hw <;> rcases hmem' w' hw' with hw' | hw'
    · rw [hw, hw']
      exact L.tcb_tcb t u h
    · rw [hw]
      exact ((L.stack_tcb (some u) t).sub (by omega) hw').symm
    · rw [hw']
      exact (L.stack_tcb (some t) u).sub (by omega) hw
    · exact (((L.stack_stack _ _ hsome).sub (by omega) hw).symm.sub (by omega) hw').symm
  rw [hws, hvs]
  change L.start u (storeAll m ws) = L.start t (storeAll m vs)
  rw [hvs, hws, storeAll_comm hapart]

/-- The set-up ends for any list of threads, and leaves `OS_Curr` alone. -/
theorem exists_setUp (ts : List ι) (m : ByteMemory) : ∃ m', L.setUp ts m = .ok m' ∧
    (∀ t ∈ ts, L.Started m' t) ∧ load32 m' L.osCurr = load32 m L.osCurr ∧
    ∀ u, L.Started m u → L.Started m' u := by
  induction ts generalizing m with
  | nil => exact ⟨m, rfl, by simp, rfl, fun _ h => h⟩
  | cons t ts ih =>
    obtain ⟨m₁, hm₁, ht, hcurr₁, hkeep₁⟩ := L.exists_start t m
    obtain ⟨m₂, hm₂, hts, hcurr₂, hkeep₂⟩ := ih m₁
    refine ⟨m₂, ?_, ?_, hcurr₂.trans hcurr₁, fun u hu => hkeep₂ u (hkeep₁ u hu)⟩
    · rw [setUp, List.foldlM_cons, hm₁]
      exact hm₂
    · intro u hu
      rcases List.mem_cons.mp hu with rfl | hu
      · exact hkeep₂ _ ht
      · exact hts u hu

end Layout

end LiteRTOS
