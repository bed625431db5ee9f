import Mathlib.Data.List.Nodup
import Mathlib.Logic.Function.Basic
import Mathlib.Tactic.Ring

/-!
# Linked lists in memory

Memory is a function from addresses to bytes. `load` and `store` read and write a word of
`n` bytes, the least significant first. `Linked n b head l` says that the pointer `head`
leads through the nodes of `l` in order: each node is an address whose first word is the
pointer to the next one, and the pointer 0 ends the list. What is written outside the words
of the nodes leaves a list alone.
-/

namespace LinkedList

variable {n a x v head : ℕ} {b b' : ℕ → UInt8} {l : List ℕ}

/-! ## Words -/

/-- The word of `n` bytes at the address `a`. -/
def load : ℕ → (ℕ → UInt8) → ℕ → ℕ
  | 0, _, _ => 0
  | n + 1, b, a => (b a).toNat + 256 * load n b (a + 1)

/-- Memory after the word `v` has been written to the `n` bytes at `a`. -/
def store : ℕ → ℕ → ℕ → (ℕ → UInt8) → ℕ → UInt8
  | 0, _, _, b => b
  | n + 1, a, v, b => store n (a + 1) (v / 256) (Function.update b a (UInt8.ofNat v))

theorem load_congr (n : ℕ) (h : ∀ x, a ≤ x → x < a + n → b x = b' x) :
    load n b a = load n b' a := by
  induction n generalizing a with
  | zero => rfl
  | succ n ih =>
      rw [load, load, h a le_rfl (by omega), ih fun x hx hx' => h x (by omega) (by omega)]

theorem store_of_outside (n a v : ℕ) (b : ℕ → UInt8) (h : x < a ∨ a + n ≤ x) :
    store n a v b x = b x := by
  induction n generalizing a v b with
  | zero => rfl
  | succ n ih =>
      rw [store, ih (a + 1) (v / 256) _ (by omega), Function.update_of_ne (by omega)]

theorem load_store (n a v : ℕ) (b : ℕ → UInt8) (h : v < 256 ^ n) :
    load n (store n a v b) a = v := by
  induction n generalizing a v b with
  | zero =>
      rw [pow_zero] at h
      rw [load]
      omega
  | succ n ih =>
      have hhigh : v / 256 < 256 ^ n := by
        rw [pow_succ] at h
        omega
      rw [load, store, ih (a + 1) (v / 256) _ hhigh, store_of_outside _ _ _ _ (Or.inl (by omega)),
        Function.update_self]
      change v % 256 + 256 * (v / 256) = v
      omega

/-! ## Lists -/

/-- The pointer `head` leads through the nodes of a list, whose words have `n` bytes. -/
def Linked (n : ℕ) (b : ℕ → UInt8) : ℕ → List ℕ → Prop
  | head, [] => head = 0
  | head, p :: rest => head = p ∧ p ≠ 0 ∧ Linked n b (load n b p) rest

/-- A pointer leads through one list only. -/
theorem Linked.unique {l' : List ℕ} (h : Linked n b head l) (h' : Linked n b head l') :
    l = l' := by
  induction l generalizing head l' with
  | nil =>
      cases l' with
      | nil => rfl
      | cons p' rest' => exact absurd (h'.1.symm.trans h) h'.2.1
  | cons p rest ih =>
      cases l' with
      | nil => exact absurd (h.1.symm.trans h') h.2.1
      | cons p' rest' =>
          obtain ⟨rfl, _, hrest⟩ := h
          obtain ⟨rfl, _, hrest'⟩ := h'
          rw [ih hrest hrest']

theorem Linked.congr (h : Linked n b head l)
    (hb : ∀ p ∈ l, ∀ x, p ≤ x → x < p + n → b x = b' x) : Linked n b' head l := by
  induction l generalizing head with
  | nil => exact h
  | cons p rest ih =>
      obtain ⟨hhead, hne, hrest⟩ := h
      refine ⟨hhead, hne, ?_⟩
      rw [← load_congr n (hb p List.mem_cons_self)]
      exact ih hrest fun q hq => hb q (List.mem_cons_of_mem p hq)

theorem Linked.push (h : Linked n b head l) (ha : a ≠ 0) (hhead : head < 256 ^ n)
    (hapart : ∀ p ∈ l, p + n ≤ a ∨ a + n ≤ p) : Linked n (store n a head b) a (a :: l) := by
  refine ⟨rfl, ha, ?_⟩
  rw [load_store n a head b hhead]
  refine h.congr fun p hp x hx hx' => (store_of_outside n a head b ?_).symm
  have := hapart p hp
  omega

end LinkedList
