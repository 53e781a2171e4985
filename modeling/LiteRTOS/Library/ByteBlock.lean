import LiteRTOS.Library.ByteMemory
import Mathlib.Algebra.Group.Nat.Defs

/-!
# Blocks of byte memory

A block is given by its address and its number of bytes and may wrap around at `2^32`: the byte
`b` belongs to the block of `n` bytes at `a` if `(b - a).toNat < n`. The file has the rules by
which a sequence of word accesses is read back and by which it is seen to leave other blocks
alone.

## Main definitions

* `ByteMemory.BlocksApart`: two blocks with no common byte.
* `ByteMemory.SameOn`: two memories agree on a block.
* `ByteMemory.word`, `ByteMemory.storeWords`, `ByteMemory.Words`: consecutive words.
* `ByteMemory.pushWord`: a store that decrements the stack pointer first.
* `ByteMemory.storeAll`, `ByteMemory.pushes`: a list of stores, and the one that pushing makes.

## Main results

* `ByteMemory.words_storeWords`, `ByteMemory.sameOn_storeWords`: what a sequence of stores writes
  and what it leaves alone.
* `ByteMemory.foldl_pushWord`: pushing words is storing them in reverse order.
* `ByteMemory.storeAll_of_notMem`, `ByteMemory.load32_storeAll_const`, `ByteMemory.storeAll_comm`:
  what a list of stores leaves alone, a list of stores of one value, and stores that do not meet.
-/

namespace ByteMemory

variable {m m' m'' : ByteMemory} {a b c : BitVec 32} {n k j : ℕ}

/-! ### Blocks without common bytes -/

/-- The `n` bytes at `a` and the `k` bytes at `b` are different ones. -/
def BlocksApart (a : BitVec 32) (n : ℕ) (b : BitVec 32) (k : ℕ) : Prop :=
  n ≤ (b - a).toNat ∧ k ≤ (a - b).toNat

instance : Decidable (BlocksApart a n b k) := inferInstanceAs (Decidable (_ ∧ _))

theorem BlocksApart.symm (h : BlocksApart a n b k) : BlocksApart b k a n := ⟨h.2, h.1⟩

/-- A byte of the second block is not one of the first. -/
theorem BlocksApart.le_of_lt (h : BlocksApart a n b k) (hc : (c - b).toNat < k) :
    n ≤ (c - a).toNat := by
  obtain ⟨h₁, h₂⟩ := h
  bv_omega

/-- A block inside the first block. -/
theorem BlocksApart.sub (h : BlocksApart a n b k) (hj : 0 < j) (hc : (c - a).toNat + j ≤ n) :
    BlocksApart c j b k := by
  obtain ⟨h₁, h₂⟩ := h
  constructor <;> bv_omega

/-! ### Memories that agree on a block -/

/-- The memories `m` and `m'` have the same `n` bytes at `a`. -/
def SameOn (a : BitVec 32) (n : ℕ) (m m' : ByteMemory) : Prop :=
  ∀ b : BitVec 32, (b - a).toNat < n → m' b = m b

theorem SameOn.refl : SameOn a n m m := fun _ _ => rfl

theorem SameOn.trans (h : SameOn a n m m') (h' : SameOn a n m' m'') : SameOn a n m m'' :=
  fun b hb => (h' b hb).trans (h b hb)

/-- A block inside a block on which the memories agree. -/
theorem SameOn.sub (h : SameOn a n m m') (hc : (c - a).toNat + j ≤ n) :
    SameOn c j m m' := by
  intro b hb
  refine h b ?_
  bv_omega

theorem SameOn.load32_eq (h : SameOn a 4 m m') : load32 m' a = load32 m a := by
  refine load32_congr fun i hi => h _ ?_
  bv_omega

theorem sameOn_store32 (h : BlocksApart a 4 b n) (v : BitVec 32) :
    SameOn b n m (store32 m a v) :=
  fun _ hc => store32_of_notMem (h.le_of_lt hc) v

/-! ### Consecutive words -/

/-- The word number `i` of the words at `a`. -/
def word (m : ByteMemory) (a : BitVec 32) (i : ℕ) : BitVec 32 :=
  load32 m (a + BitVec.ofNat 32 (4 * i))

theorem word_add (m : ByteMemory) (a : BitVec 32) (i l : ℕ) :
    word m (a + BitVec.ofNat 32 (4 * i)) l = word m a (i + l) := by
  rw [word, word, BitVec.add_assoc, ← BitVec.ofNat_add, ← Nat.mul_add]

theorem SameOn.word_eq {i : ℕ} (h : SameOn a n m m') (hi : 4 * (i + 1) ≤ n) :
    word m' a i = word m a i := by
  have hsub : SameOn (a + BitVec.ofNat 32 (4 * i)) 4 m m' := by
    refine h.sub ?_
    bv_omega
  exact hsub.load32_eq

/-- Store consecutive words from `a` on. -/
def storeWords (m : ByteMemory) (a : BitVec 32) : List (BitVec 32) → ByteMemory
  | [] => m
  | w :: ws => store32 (storeWords m (a + 4) ws) a w

/-- The words at `a` are `ws`. -/
def Words (m : ByteMemory) (a : BitVec 32) (ws : List (BitVec 32)) : Prop :=
  ∀ (i : ℕ) (h : i < ws.length), word m a i = ws[i]

theorem Words.eq_of_getElem? {ws : List (BitVec 32)} {i : ℕ} {w : BitVec 32} (h : Words m a ws)
    (hw : ws[i]? = some w) : word m a i = w := by
  obtain ⟨hi, rfl⟩ := List.getElem?_eq_some_iff.mp hw
  exact h i hi

theorem Words.of_sameOn {ws : List (BitVec 32)} (h : Words m a ws)
    (hsame : SameOn a (4 * ws.length) m m') : Words m' a ws :=
  fun i hi => (hsame.word_eq (by omega)).trans (h i hi)

theorem Words.append {us vs : List (BitVec 32)} (hu : Words m a us)
    (hv : Words m (a + BitVec.ofNat 32 (4 * us.length)) vs) : Words m a (us ++ vs) := by
  intro i hi
  rw [List.length_append] at hi
  rw [List.getElem_append]
  split
  · exact hu i _
  · have hi' : us.length ≤ i := by omega
    have h := hv (i - us.length) (by omega)
    rwa [word_add, Nat.add_sub_cancel' hi'] at h

/-- Stored words are read back. -/
theorem words_storeWords {ws : List (BitVec 32)} (hlen : 4 * ws.length ≤ 2 ^ 32) :
    Words (storeWords m a ws) a ws := by
  induction ws generalizing a with
  | nil => exact fun i hi => absurd hi (Nat.not_lt_zero i)
  | cons w ws ih =>
    rw [List.length_cons] at hlen
    intro i hi
    rcases i with _ | i
    · simp [word, storeWords]
    · rw [List.length_cons] at hi
      have hapart : Apart a (a + BitVec.ofNat 32 (4 * (i + 1))) := by
        constructor <;> bv_omega
      have haddr : a + BitVec.ofNat 32 (4 * (i + 1)) = a + 4 + BitVec.ofNat 32 (4 * i) := by
        bv_omega
      have hrest := ih (a := a + 4) (by omega) i (by omega)
      rw [word, storeWords, load32_store32_of_apart hapart, haddr]
      exact hrest

theorem sameOn_storeWords {ws : List (BitVec 32)} (hlen : 4 * ws.length ≤ 2 ^ 32)
    (h : BlocksApart a (4 * ws.length) b n) : SameOn b n m (storeWords m a ws) := by
  induction ws generalizing a with
  | nil => exact .refl
  | cons w ws ih =>
    rw [List.length_cons] at hlen h
    have hword : BlocksApart a 4 b n := h.sub (by omega) (by bv_omega)
    refine SameOn.trans ?_ (sameOn_store32 hword w)
    rcases ws with _ | ⟨w', ws⟩
    · exact .refl
    · rw [List.length_cons] at ih hlen h
      exact ih (by omega) (h.sub (by omega) (by bv_omega))

theorem storeWords_concat (m : ByteMemory) (a w : BitVec 32) (ws : List (BitVec 32)) :
    storeWords m a (ws ++ [w]) =
      storeWords (store32 m (a + BitVec.ofNat 32 (4 * ws.length)) w) a ws := by
  induction ws generalizing a with
  | nil => simp [storeWords]
  | cons w' ws ih =>
    have haddr : a + 4 + BitVec.ofNat 32 (4 * ws.length) =
        a + BitVec.ofNat 32 (4 * (ws.length + 1)) := by bv_omega
    rw [List.cons_append, storeWords, storeWords, ih, haddr, List.length_cons]

/-! ### Pushing words -/

/-- `*(--sp) = w`. -/
def pushWord (s : ByteMemory × BitVec 32) (w : BitVec 32) : ByteMemory × BitVec 32 :=
  (store32 s.1 (s.2 - 4) w, s.2 - 4)

theorem foldl_pushWord (ws : List (BitVec 32)) (m : ByteMemory) (sp : BitVec 32) :
    ws.foldl pushWord (m, sp) =
      (storeWords m (sp - BitVec.ofNat 32 (4 * ws.length)) ws.reverse,
        sp - BitVec.ofNat 32 (4 * ws.length)) := by
  induction ws generalizing m sp with
  | nil => simp [storeWords]
  | cons w ws ih =>
    have hsp : sp - 4 - BitVec.ofNat 32 (4 * ws.length) =
        sp - BitVec.ofNat 32 (4 * (ws.length + 1)) := by bv_omega
    have haddr : sp - BitVec.ofNat 32 (4 * (ws.length + 1)) +
        BitVec.ofNat 32 (4 * ws.length) = sp - 4 := by bv_omega
    rw [List.foldl_cons, pushWord, ih, hsp, List.reverse_cons, storeWords_concat, List.length_cons,
      List.length_reverse, haddr]

/-! ### Lists of stores -/

/-- Store a word at each address of a list, one after the other. -/
def storeAll (m : ByteMemory) (ws : List (BitVec 32 × BitVec 32)) : ByteMemory :=
  ws.foldl (fun m w => store32 m w.1 w.2) m

/-- The addresses and the words of the stores that push `ws` from the stack pointer `sp` on. -/
def pushes : BitVec 32 → List (BitVec 32) → List (BitVec 32 × BitVec 32)
  | _, [] => []
  | sp, w :: ws => (sp - 4, w) :: pushes (sp - 4) ws

variable {as : List (BitVec 32)} {ws vs : List (BitVec 32 × BitVec 32)} {v : BitVec 32}

theorem storeAll_cons (m : ByteMemory) (w : BitVec 32 × BitVec 32) :
    storeAll m (w :: ws) = storeAll (store32 m w.1 w.2) ws := rfl

theorem storeAll_append (m : ByteMemory) : storeAll m (ws ++ vs) = storeAll (storeAll m ws) vs :=
  List.foldl_append

theorem foldl_pushWord_eq_storeAll (ws : List (BitVec 32)) (m : ByteMemory) (sp : BitVec 32) :
    ws.foldl pushWord (m, sp) =
      (storeAll m (pushes sp ws), sp - BitVec.ofNat 32 (4 * ws.length)) := by
  induction ws generalizing m sp with
  | nil => simp [storeAll, pushes]
  | cons w ws ih =>
    rw [List.foldl_cons, pushWord, ih, pushes, storeAll_cons]
    refine Prod.ext rfl ?_
    change sp - 4 - BitVec.ofNat 32 (4 * ws.length) = sp - BitVec.ofNat 32 (4 * (ws.length + 1))
    bv_omega

/-- The addresses to which words are pushed. -/
theorem mem_map_fst_pushes {ws : List (BitVec 32)} {sp : BitVec 32} :
    a ∈ (pushes sp ws).map Prod.fst ↔ ∃ i < ws.length, a = sp - BitVec.ofNat 32 (4 * (i + 1)) := by
  induction ws generalizing sp with
  | nil => simp [pushes]
  | cons w ws ih =>
    rw [pushes, List.map_cons, List.mem_cons, ih]
    have hsub (i : ℕ) : sp - 4 - BitVec.ofNat 32 (4 * (i + 1)) =
        sp - BitVec.ofNat 32 (4 * (i + 1 + 1)) := by bv_omega
    constructor
    · rintro (rfl | ⟨i, hi, rfl⟩)
      · exact ⟨0, Nat.succ_pos _, rfl⟩
      · exact ⟨i + 1, Nat.succ_lt_succ hi, hsub i⟩
    · rintro ⟨_ | i, hi, rfl⟩
      · exact Or.inl rfl
      · exact Or.inr ⟨i, Nat.lt_of_succ_lt_succ hi, (hsub i).symm⟩

/-- A byte outside the words stored keeps its value. -/
theorem storeAll_of_notMem (h : ∀ w ∈ ws, 4 ≤ (b - w.1).toNat) : storeAll m ws b = m b := by
  induction ws generalizing m with
  | nil => rfl
  | cons w ws ih =>
    rw [storeAll_cons, ih fun w' hw' => h w' (List.mem_cons_of_mem _ hw'),
      store32_of_notMem (h w List.mem_cons_self)]

/-- The byte after a list of stores depends on no other byte before them. -/
theorem storeAll_congr (h : m b = m' b) : storeAll m ws b = storeAll m' ws b := by
  induction ws generalizing m m' with
  | nil => exact h
  | cons w ws ih =>
    refine ih ?_
    simp only [store32, h]

/-- A word to which one value is stored among others that do not meet it. -/
theorem load32_storeAll_const (hin : load32 m a = v ∨ a ∈ as) (h : ∀ b ∈ as, b = a ∨ Apart b a) :
    load32 (storeAll m (as.map fun b => (b, v))) a = v := by
  induction as generalizing m with
  | nil => exact hin.resolve_right List.not_mem_nil
  | cons b as ih =>
    rw [List.map_cons, storeAll_cons]
    refine ih ?_ fun c hc => h c (List.mem_cons_of_mem _ hc)
    rcases h b List.mem_cons_self with rfl | hapart
    · exact Or.inl (load32_store32_self v)
    · rw [load32_store32_of_apart hapart]
      refine hin.imp_right fun hmem => (List.mem_cons.mp hmem).resolve_left ?_
      rintro rfl
      exact absurd hapart.1 (by simp)

/-- Stores to words that do not meet can be made in any order. -/
theorem storeAll_comm (h : ∀ w ∈ ws, ∀ w' ∈ vs, Apart w.1 w'.1) (m : ByteMemory) :
    storeAll (storeAll m ws) vs = storeAll (storeAll m vs) ws := by
  funext b
  by_cases hb : ∀ w' ∈ vs, 4 ≤ (b - w'.1).toNat
  · rw [storeAll_of_notMem hb, storeAll_congr (storeAll_of_notMem hb)]
  · have hws : ∀ w ∈ ws, 4 ≤ (b - w.1).toNat := by
      intro w hw
      rcases Nat.lt_or_ge (b - w.1).toNat 4 with hlt | hle
      · refine absurd (fun w' hw' => ?_) hb
        obtain ⟨h₁, h₂⟩ := h w hw w' hw'
        bv_omega
      · exact hle
    rw [storeAll_of_notMem hws, storeAll_congr (storeAll_of_notMem hws)]

end ByteMemory
