import LiteRTOS.OS.System

/-!
# Which calls of `OSThread_Start` the table of threads can take

`OSThread_Start` registers whatever control block and priority it is given: it makes no check
before it writes `OS_Thread[Prio]`. After every call of a sequence the table is in order exactly
if all priorities are indices of the table and two calls are on the same control block just when
they are on the same priority. A priority above 32 is an index beyond the table, a second thread on
a priority displaces the first one, and a thread that is started again on another priority leaves
its old entry behind.

## Main definitions

* `startAll`: a sequence of calls.
* `Kernel.Keeps`: the table after a sequence of calls is in order.
* `Unambiguous`: calls that name each thread and each priority in one way.

## Main results

* `registration_safe_iff`: the table is in order after every call exactly for such sequences.
-/

namespace LiteRTOS

/-- The calls of `OSThread_Start`, one after the other. -/
def startAll (calls : List (TcbPtr × BitVec 8)) (k : Kernel) : Except Fault Kernel :=
  calls.foldlM (fun k q => osThreadStart q.1 q.2 k) k

/-- The entries of `OS_Thread` are at the priorities of their threads, and the threads of the calls
are all in it. -/
structure Kernel.Keeps (k : Kernel) (calls : List (TcbPtr × BitVec 8)) : Prop where
  prio_eq : ∀ p t, k.entry p = some t → (k.tcb t).prio.toNat = p
  entry : ∀ q ∈ calls, k.entry (k.tcb q.1).prio.toNat = some q.1

/-- The priorities are indices of `OS_Thread`, and two calls are on the same control block if and
only if they are on the same priority. -/
structure Unambiguous (calls : List (TcbPtr × BitVec 8)) : Prop where
  prio_le : ∀ q ∈ calls, q.2.toNat ≤ 32
  tcb_iff : ∀ q ∈ calls, ∀ q' ∈ calls, q.1 = q'.1 ↔ q.2 = q'.2

/-- The table has the threads of the calls at the priorities of the calls, and no others. -/
structure Kernel.Tabulates (k : Kernel) (calls : List (TcbPtr × BitVec 8)) : Prop where
  entry_iff : ∀ p t, k.entry p = some t ↔ ∃ q ∈ calls, q.1 = t ∧ q.2.toNat = p
  prio : ∀ q ∈ calls, (k.tcb q.1).prio = q.2

variable {k k' : Kernel} {calls l : List (TcbPtr × BitVec 8)} {q : TcbPtr × BitVec 8}

theorem Unambiguous.mono (h : Unambiguous calls) (hl : l ⊆ calls) : Unambiguous l where
  prio_le q hq := h.prio_le q (hl hq)
  tcb_iff q hq q' hq' := h.tcb_iff q (hl hq) q' (hl hq')

theorem Kernel.Tabulates.keeps (h : k.Tabulates calls) : k.Keeps calls where
  prio_eq p t ht := by
    obtain ⟨q, hq, rfl, rfl⟩ := (h.entry_iff p t).mp ht
    rw [h.prio q hq]
  entry q hq := by
    rw [h.prio q hq]
    exact (h.entry_iff _ _).mpr ⟨q, hq, rfl, rfl⟩

/-! ### One call -/

/-- A call on a priority in the table sets the entry and the priority of its thread. -/
theorem exists_osThreadStart (t : TcbPtr) {prio : BitVec 8} (h : prio.toNat ≤ 32) (k : Kernel) :
    ∃ k', osThreadStart t prio k = .ok k' ∧
      (∀ p, k'.entry p = if p = prio.toNat then some t else k.entry p) ∧
      ∀ t', (k'.tcb t').prio = if t' = t then prio else (k.tcb t').prio := by
  have hlt : prio.toNat < 33 := Nat.lt_succ_of_le h
  let k₁ : Kernel := { k with osThread := Function.update k.osThread ⟨prio.toNat, hlt⟩ (some t) }
  have hentry (p : ℕ) : k₁.entry p = if p = prio.toNat then some t else k.entry p := by
    simp only [k₁, Kernel.entry, Function.update_apply, Fin.mk.injEq]
    split_ifs <;> first | rfl | omega
  have hprio (t' : TcbPtr) :
      ((k₁.setPrio t prio).tcb t').prio = if t' = t then prio else (k.tcb t').prio := by
    simp only [k₁, Kernel.setPrio, Function.update_apply]
    split_ifs <;> rfl
  by_cases hpos : prio > 0
  · obtain ⟨i, hi⟩ := exists_prio_eq (BitVec.lt_def.mp hpos) h
    have hidx : (⟨prio.toNat, hlt⟩ : Fin 33) = i.succ := Fin.ext hi
    refine ⟨k.addThread t prio i, osThreadStart_eq t hi, fun p => ?_, hprio⟩
    rw [← hentry]
    simp only [k₁, hidx, Kernel.addThread, Kernel.entry]
  · refine ⟨k₁.setPrio t prio, ?_, hentry, hprio⟩
    rw [osThreadStart, dif_pos hlt, if_neg hpos]
    rfl

/-- A call on a priority above 32 writes beyond the table. -/
theorem osThreadStart_of_lt (t : TcbPtr) {prio : BitVec 8} (h : 32 < prio.toNat) (k : Kernel) :
    osThreadStart t prio k = .error .tableBounds := by
  rw [osThreadStart, dif_neg (by omega)]
  rfl

/-- A call that goes with the calls before it. -/
theorem Kernel.Tabulates.start (h : k.Tabulates l) (hl : Unambiguous (l ++ [q])) :
    ∃ k', osThreadStart q.1 q.2 k = .ok k' ∧ k'.Tabulates (l ++ [q]) := by
  obtain ⟨k', hk', hentry, hprio⟩ := exists_osThreadStart q.1 (hl.prio_le q (by simp)) k
  refine ⟨k', hk', fun p t => ?_, fun q' hq' => ?_⟩
  · rw [hentry]
    split_ifs with hp
    · -- the entry of the new call
      rw [Option.some.injEq]
      constructor
      · rintro rfl
        exact ⟨q, by simp, rfl, hp.symm⟩
      · rintro ⟨q', hq', rfl, hp'⟩
        have hsame : q'.2 = q.2 := BitVec.eq_of_toNat_eq (hp'.trans hp)
        exact ((hl.tcb_iff q' hq' q (by simp)).mpr hsame).symm
    · rw [h.entry_iff]
      constructor
      · rintro ⟨q', hq', ht, hp'⟩
        exact ⟨q', by simp [hq'], ht, hp'⟩
      · rintro ⟨q', hq', ht, rfl⟩
        rcases List.mem_append.mp hq' with hq' | hq'
        · exact ⟨q', hq', ht, rfl⟩
        · obtain rfl := List.mem_singleton.mp hq'
          exact absurd rfl hp
  · rw [hprio]
    split_ifs with ht
    · exact ((hl.tcb_iff q' hq' q (by simp)).mp ht).symm
    · rcases List.mem_append.mp hq' with hq' | hq'
      · exact h.prio q' hq'
      · obtain rfl := List.mem_singleton.mp hq'
        exact absurd rfl ht

/-- After a call that leaves the table in order, the new call goes with those before it. -/
theorem Kernel.Tabulates.unambiguous (h : k.Tabulates l) (hl : Unambiguous l)
    (hk' : osThreadStart q.1 q.2 k = .ok k') (hkeeps : k'.Keeps (l ++ [q])) :
    Unambiguous (l ++ [q]) := by
  have hle : q.2.toNat ≤ 32 := by
    by_contra hlt
    rw [osThreadStart_of_lt q.1 (by omega)] at hk'
    cases hk'
  obtain ⟨k₁, hk₁, hentry, hprio⟩ := exists_osThreadStart q.1 hle k
  obtain rfl := Except.ok.inj (hk₁.symm.trans hk')
  have hiff (q' : TcbPtr × BitVec 8) (hq' : q' ∈ l) : q'.1 = q.1 ↔ q'.2 = q.2 := by
    constructor
    · -- the old entry of a thread that is started again is not at its priority any more
      intro ht
      by_contra hne
      have hp : q'.2.toNat ≠ q.2.toNat := fun hp => hne (BitVec.eq_of_toNat_eq hp)
      have hold : k₁.entry q'.2.toNat = some q'.1 := by
        rw [hentry, if_neg hp]
        exact (h.entry_iff _ _).mpr ⟨q', hq', rfl, rfl⟩
      have := hkeeps.prio_eq _ _ hold
      rw [hprio, if_pos ht] at this
      exact hp this.symm
    · -- the thread that is displaced is not in the table any more
      intro hp
      by_contra hne
      have hmem := hkeeps.entry q' (by simp [hq'])
      rw [hprio, if_neg hne, h.prio q' hq', hp, hentry, if_pos rfl] at hmem
      exact hne (Option.some.inj hmem).symm
  have hcases {C : TcbPtr × BitVec 8 → Prop} (hC : ∀ q' ∈ l, C q') (hq : C q) :
      ∀ q' ∈ l ++ [q], C q' :=
    List.forall_mem_append.mpr ⟨hC, List.forall_mem_singleton.mpr hq⟩
  refine ⟨hcases hl.prio_le hle, hcases (fun q₁ hq₁ => ?_) ?_⟩
  · exact hcases (fun q₂ hq₂ => hl.tcb_iff q₁ hq₁ q₂ hq₂) (hiff q₁ hq₁)
  · refine hcases (fun q₂ hq₂ => ?_) (iff_of_true rfl rfl)
    rw [eq_comm, hiff q₂ hq₂, eq_comm]

/-! ### All calls -/

theorem startAll_concat : startAll (l ++ [q]) k =
    (do let k ← startAll l k; osThreadStart q.1 q.2 k) := by
  simp [startAll, List.foldlM_append]

/-- Calls that go with each other put all their threads in the table. -/
theorem Unambiguous.exists_startAll (hl : Unambiguous l) (hk : k.osThread = fun _ => none) :
    ∃ k', startAll l k = .ok k' ∧ k'.Tabulates l := by
  induction l using List.reverseRecOn with
  | nil =>
    refine ⟨k, rfl, fun p t => ?_, by simp⟩
    simp [Kernel.entry, hk]
  | append_singleton l q ih =>
    obtain ⟨k₁, hk₁, h₁⟩ := ih (hl.mono (by simp))
    obtain ⟨k', hk', h'⟩ := h₁.start hl
    exact ⟨k', by rw [startAll_concat, hk₁, ok_bind, hk'], h'⟩

/-- **The table is in order after every call exactly if the calls go with each other.** Let
`OS_Thread` be empty at first, as a zeroed variable is. After every call of a sequence all writes
to `OS_Thread` have been at indices up to 32, all shifts by less than 32, every entry of the table
is at the priority of its thread, and every thread started so far is the entry at its priority:
this is so if and only if the priorities are at most 32 and two calls are on the same control
block just when they are on the same priority. -/
theorem registration_safe_iff (hk : k.osThread = fun _ => none) :
    (∀ l, l <+: calls → ∃ k', startAll l k = .ok k' ∧ k'.Keeps l) ↔ Unambiguous calls := by
  constructor
  · intro h
    induction calls using List.reverseRecOn with
    | nil => exact ⟨by simp, by simp⟩
    | append_singleton l q ih =>
      have hl := ih fun l' hl' => h l' (hl'.trans (List.prefix_append l [q]))
      obtain ⟨k₁, hk₁, h₁⟩ := hl.exists_startAll hk
      obtain ⟨k', hk', hkeeps⟩ := h (l ++ [q]) (List.prefix_refl _)
      rw [startAll_concat, hk₁, ok_bind] at hk'
      exact h₁.unambiguous hl hk' hkeeps
  · intro h l hl
    obtain ⟨k', hk', h'⟩ := (h.mono hl.subset).exists_startAll hk
    exact ⟨k', hk', h'.keeps⟩

/-- The idle thread and two others. -/
theorem registration_safe_three : ∃ k',
    startAll [(.idleThread, 0), (.thread 1, 32), (.thread 2, 7)] .reset = .ok k' ∧
    k'.Keeps [(.idleThread, 0), (.thread 1, 32), (.thread 2, 7)] :=
  (registration_safe_iff (k := .reset) rfl).mpr ⟨by decide, by decide⟩ _ (List.prefix_refl _)

/-- A second thread on a priority displaces the first one, a thread that is started again leaves
its old entry behind, and a priority above 32 is beyond the table. -/
theorem registration_unsafe :
    (∃ k', startAll [(.thread 1, 5), (.thread 2, 5)] .reset = .ok k' ∧
      ¬k'.Keeps [(.thread 1, 5), (.thread 2, 5)]) ∧
    (∃ k', startAll [(.thread 1, 5), (.thread 1, 6)] .reset = .ok k' ∧
      ¬k'.Keeps [(.thread 1, 5), (.thread 1, 6)]) ∧
    startAll [(.thread 1, 33)] .reset = .error .tableBounds := by
  refine ⟨⟨_, rfl, fun h => ?_⟩, ⟨_, rfl, fun h => ?_⟩, rfl⟩
  · exact absurd (h.entry (.thread 1, 5) (by simp)) (by decide)
  · exact absurd (h.prio_eq 5 (.thread 1) (by decide)) (by decide)

end LiteRTOS
