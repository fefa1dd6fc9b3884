import Mathlib.Tactic.Ring
import Mathlib.Tactic.NormNum

/-!
# Byte-addressed memory with little-endian words

A memory is a total function from addresses to bytes. `store m a n w` writes the
`n` low bytes of `w` at `a`, least significant first, and `load m a n` reads `n`
bytes back as a natural number. The laws are the usual three: a word is read back
where it was stored, a disjoint load does not notice the store, and a load inside a
stored word sees the corresponding digits of it.

`store64`/`load64` are the instances for 64-bit machine words.
-/

namespace ByteMem

/-- A byte-addressed memory. -/
abbrev Mem : Type := ℕ → UInt8

/-- Byte `i` of the little-endian representation of `w`. -/
def byteAt (w i : ℕ) : UInt8 := UInt8.ofNat (w / 256 ^ i)

/-- Write the `n` low bytes of `w` at address `a`. -/
def store (m : Mem) (a n w : ℕ) : Mem :=
  fun i => if a ≤ i ∧ i < a + n then byteAt w (i - a) else m i

/-- Read `n` bytes at address `a` as a little-endian number. -/
def load (m : Mem) : ℕ → ℕ → ℕ
  | _, 0 => 0
  | a, n + 1 => (m a).toNat + 256 * load m (a + 1) n

@[simp] theorem load_zero (m : Mem) (a : ℕ) : load m a 0 = 0 := rfl

theorem load_succ (m : Mem) (a n : ℕ) :
    load m a (n + 1) = (m a).toNat + 256 * load m (a + 1) n := rfl

theorem toNat_byteAt (w i : ℕ) : (byteAt w i).toNat = w / 256 ^ i % 256 := by
  rw [byteAt, UInt8.toNat_ofNat']

/-- A load depends only on the bytes it reads. -/
theorem load_congr {m m' : Mem} {n : ℕ} :
    ∀ {a : ℕ}, (∀ i, a ≤ i → i < a + n → m i = m' i) → load m a n = load m' a n := by
  induction n with
  | zero => intro a _; rfl
  | succ n ih =>
    intro a h
    rw [load_succ, load_succ, h a (le_refl a) (by omega),
      ih fun i hlo hhi => h i (by omega) (by omega)]

/-- A load is a number of the width it reads. -/
theorem load_lt (m : Mem) (n : ℕ) : ∀ a : ℕ, load m a n < 256 ^ n := by
  induction n with
  | zero => intro a; simp
  | succ n ih =>
    intro a
    have hrest := ih (a + 1)
    have hbyte : (m a).toNat < 256 := (m a).toNat_lt
    rw [load_succ, pow_succ]
    omega

/-- A memory that holds the digits of `w` from `a` on reads back as `w`. -/
theorem load_of_digits {m : Mem} (n : ℕ) :
    ∀ {a w : ℕ}, (∀ i, i < n → m (a + i) = byteAt w i) → load m a n = w % 256 ^ n := by
  induction n with
  | zero => intro a w _; simp [Nat.mod_one]
  | succ n ih =>
    intro a w h
    have hhead : (m a).toNat = w % 256 := by
      have h0 := h 0 (by omega)
      rw [Nat.add_zero] at h0
      rw [h0, toNat_byteAt, pow_zero, Nat.div_one]
    have htail : load m (a + 1) n = w / 256 % 256 ^ n := by
      refine ih fun i hi => ?_
      have hstep := h (i + 1) (by omega)
      rw [show a + 1 + i = a + (i + 1) by omega, hstep]
      simp only [byteAt]
      rw [Nat.div_div_eq_div_mul, pow_succ, Nat.mul_comm 256]
    rw [load_succ, hhead, htail, pow_succ, Nat.mul_comm (256 ^ n) 256, Nat.mod_mul]

/-- A load inside a stored word reads the corresponding digits of it. -/
theorem load_store_inside (m : Mem) {a n w j k : ℕ} (h : j + k ≤ n) :
    load (store m a n w) (a + j) k = w / 256 ^ j % 256 ^ k := by
  refine load_of_digits k fun i hi => ?_
  have hin : a ≤ a + j + i ∧ a + j + i < a + n := by omega
  rw [store, if_pos hin, byteAt, byteAt, Nat.div_div_eq_div_mul, ← pow_add,
    show a + j + i - a = j + i by omega]

/-- A stored word is read back. -/
theorem load_store_same (m : Mem) (a n w : ℕ) : load (store m a n w) a n = w % 256 ^ n := by
  have h := load_store_inside m (a := a) (w := w) (j := 0) (Nat.le_of_eq (Nat.zero_add n))
  rwa [Nat.add_zero, pow_zero, Nat.div_one] at h

/-- A store does not change a disjoint load. -/
theorem load_store_disjoint (m : Mem) {a n w b k : ℕ} (h : b + k ≤ a ∨ a + n ≤ b) :
    load (store m a n w) b k = load m b k := by
  refine load_congr fun i hlo hhi => ?_
  rw [store, if_neg (by omega)]

/-- A load splits at any point. -/
theorem load_add (m : Mem) (k : ℕ) :
    ∀ (a j : ℕ), load m a (j + k) = load m a j + 256 ^ j * load m (a + j) k := by
  intro a j
  induction j generalizing a with
  | zero => simp
  | succ j ih =>
    rw [show j + 1 + k = j + k + 1 by omega, load_succ, load_succ, ih (a + 1),
      show a + 1 + j = a + (j + 1) by omega]
    ring

/-! ## 64-bit words -/

/-- Store a 64-bit word. -/
def store64 (m : Mem) (a : ℕ) (w : UInt64) : Mem := store m a 8 w.toNat

/-- Load a 64-bit word. -/
def load64 (m : Mem) (a : ℕ) : UInt64 := UInt64.ofNat (load m a 8)

theorem toNat_load64 (m : Mem) (a : ℕ) : (load64 m a).toNat = load m a 8 := by
  rw [load64, UInt64.toNat_ofNat']
  exact Nat.mod_eq_of_lt (lt_of_lt_of_eq (load_lt m 8 a) (by norm_num))

@[simp] theorem load64_store64_same (m : Mem) (a : ℕ) (w : UInt64) :
    load64 (store64 m a w) a = w := by
  apply UInt64.toNat_inj.mp
  rw [toNat_load64, store64, load_store_same]
  exact Nat.mod_eq_of_lt (lt_of_lt_of_eq w.toNat_lt (by norm_num))

theorem load64_store64_disjoint (m : Mem) {a b : ℕ} (w : UInt64)
    (h : b + 8 ≤ a ∨ a + 8 ≤ b) : load64 (store64 m a w) b = load64 m b := by
  rw [load64, store64, load_store_disjoint m h, ← load64]

/-- A load one byte off reads the upper bytes of one word and the lowest of the next. -/
theorem toNat_load64_succ (m : Mem) (a : ℕ) :
    (load64 m (a + 1)).toNat =
      (load64 m a).toNat / 256 + 2 ^ 56 * ((load64 m (a + 8)).toNat % 256) := by
  have hbyte : (m a).toNat < 256 := (m a).toNat_lt
  have hhigh : load m (a + 1) 7 = (load64 m a).toNat / 256 := by
    rw [toNat_load64, load_succ m a 7]
    omega
  have hlow : load m (a + 8) 1 = (load64 m (a + 8)).toNat % 256 := by
    have hnext : (m (a + 8)).toNat < 256 := (m (a + 8)).toNat_lt
    rw [toNat_load64, load_succ m (a + 8) 0, load_zero, load_succ m (a + 8) 7]
    omega
  rw [toNat_load64, load_add m 1 (a + 1) 7, hhigh, ← hlow]
  norm_num [Nat.add_assoc]

/-- The memory that holds `b` everywhere. -/
def fill (b : UInt8) : Mem := fun _ => b

theorem load64_fill_ones (a : ℕ) : load64 (fill 0xff) a = 0xffffffffffffffff := by
  apply UInt64.toNat_inj.mp
  simp only [toNat_load64, load, fill]
  decide

/-! ## Byte strings -/

/-- Copy a string of bytes to address `a`. -/
def storeBytes (m : Mem) (a : ℕ) (bytes : List UInt8) : Mem :=
  fun i => if a ≤ i then bytes.getD (i - a) (m i) else m i

/-- The `n` bytes at address `a`. -/
def loadBytes (m : Mem) (a n : ℕ) : List UInt8 := (List.range n).map fun i => m (a + i)

@[simp] theorem length_loadBytes (m : Mem) (a n : ℕ) : (loadBytes m a n).length = n := by
  rw [loadBytes, List.length_map, List.length_range]

theorem storeBytes_of_disjoint (m : Mem) {a i : ℕ} {bytes : List UInt8}
    (h : i < a ∨ a + bytes.length ≤ i) : storeBytes m a bytes i = m i := by
  rw [storeBytes]
  split
  · rw [List.getD_eq_getElem?_getD, List.getElem?_eq_none (by omega), Option.getD_none]
  · rfl

/-- A string is read back. -/
@[simp] theorem loadBytes_storeBytes_same (m : Mem) (a : ℕ) (bytes : List UInt8) :
    loadBytes (storeBytes m a bytes) a bytes.length = bytes := by
  refine List.ext_getElem (length_loadBytes ..) fun i _ hi => ?_
  simp [loadBytes, storeBytes, hi]

/-- A string that is stored elsewhere does not change a load. -/
theorem load_storeBytes_disjoint (m : Mem) {a b n : ℕ} {bytes : List UInt8}
    (h : b + n ≤ a ∨ a + bytes.length ≤ b) : load (storeBytes m a bytes) b n = load m b n :=
  load_congr fun _ _ _ => storeBytes_of_disjoint m (by omega)

/-- Words in equal strings of bytes are equal. -/
theorem load_eq_of_loadBytes {m m' : Mem} {a b n : ℕ} (h : loadBytes m a n = loadBytes m' b n) {k : ℕ} :
    ∀ j, j + k ≤ n → load m (a + j) k = load m' (b + j) k := by
  have hbyte : ∀ j, j < n → m (a + j) = m' (b + j) := by
    intro j hj
    exact List.map_inj_left.mp h j (List.mem_range.mpr hj)
  induction k with
  | zero => exact fun _ _ => rfl
  | succ k ih =>
    intro j hj
    have hrest := ih (j + 1) (by omega)
    rw [load_succ, load_succ, hbyte j (by omega), Nat.add_assoc, hrest, Nat.add_assoc]

theorem load64_eq_of_loadBytes {m m' : Mem} {a b n : ℕ} (h : loadBytes m a n = loadBytes m' b n)
    {j : ℕ} (hj : j + 8 ≤ n) : load64 m (a + j) = load64 m' (b + j) := by
  rw [load64, load64, load_eq_of_loadBytes h j hj]

end ByteMem
