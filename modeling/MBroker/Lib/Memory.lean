import Mathlib.Algebra.Group.Int.Defs
import Mathlib.Algebra.Group.Nat.Defs

/- Byte memory: a map from addresses to bytes, written in ranges and read in
   ranges. A C `int` is four little-endian bytes, and a C string is what stands
   before the first NUL. `strEq` and `strnEq` are `strcmp(..) == 0` and
   `strncmp(.., n) == 0` against a NUL-free string; `strEq_iff` and
   `strnEq_iff` say which strings they accept. -/
namespace MBroker.Lib

abbrev Mem := Nat → UInt8

namespace Mem

/-- `n` bytes of `f` written from address `a` on (`memcpy`, `memset`, a store). -/
def write (m : Mem) (a n : Nat) (f : Nat → UInt8) : Mem :=
  fun x => if a ≤ x ∧ x < a + n then f (x - a) else m x

/-- The `n` bytes from address `a` on. -/
def read (m : Mem) : Nat → Nat → List UInt8
  | _, 0 => []
  | a, n + 1 => m a :: read m (a + 1) n

theorem write_out {m : Mem} {a n x : Nat} {f : Nat → UInt8} (h : x < a ∨ a + n ≤ x) :
    m.write a n f x = m x := by
  unfold write
  rw [if_neg (by omega)]

theorem write_in {m : Mem} {a n i : Nat} {f : Nat → UInt8} (h : i < n) :
    m.write a n f (a + i) = f i := by
  unfold write
  rw [if_pos (by omega), Nat.add_sub_cancel_left]

/-- Two memories after the same write agree where they did, and where it wrote. -/
theorem write_congr {m m' : Mem} {a n x : Nat} {f : Nat → UInt8}
    (h : (x < a ∨ a + n ≤ x) → m' x = m x) : m'.write a n f x = m.write a n f x := by
  by_cases hin : a ≤ x ∧ x < a + n
  · obtain ⟨i, rfl⟩ := Nat.exists_eq_add_of_le hin.1
    rw [write_in (by omega), write_in (by omega)]
  · rw [write_out (by omega), write_out (by omega)]
    exact h (by omega)

@[simp] theorem write_zero (m : Mem) (a : Nat) (f : Nat → UInt8) : m.write a 0 f = m := by
  funext x
  exact write_out (by omega)

@[simp] theorem read_zero (m : Mem) (a : Nat) : m.read a 0 = [] := rfl

@[simp] theorem read_length (m : Mem) (a n : Nat) : (m.read a n).length = n := by
  induction n generalizing a with
  | zero => rfl
  | succ n ih => simp [read, ih]

theorem read_eq_iff {m m' : Mem} {a a' n : Nat} :
    m.read a n = m'.read a' n ↔ ∀ i, i < n → m (a + i) = m' (a' + i) := by
  induction n generalizing a a' with
  | zero => simp
  | succ n ih =>
    simp only [read, List.cons.injEq, ih]
    refine ⟨?_, ?_⟩
    · rintro ⟨h0, h⟩ i hi
      cases i with
      | zero => exact h0
      | succ i =>
        have := h i (by omega)
        rwa [Nat.add_right_comm, Nat.add_right_comm a'] at this
    · intro h
      refine ⟨h 0 (by omega), fun i hi => ?_⟩
      have := h (i + 1) (by omega)
      rwa [Nat.add_right_comm, Nat.add_right_comm a']

theorem read_congr {m m' : Mem} {a n : Nat} (h : ∀ i, i < n → m (a + i) = m' (a + i)) :
    m.read a n = m'.read a n :=
  read_eq_iff.mpr h

theorem read_add (m : Mem) (a n k : Nat) : m.read a (n + k) = m.read a n ++ m.read (a + n) k := by
  induction n generalizing a with
  | zero => simp
  | succ n ih =>
    rw [Nat.add_right_comm, read, read, ih, List.cons_append]
    congr 3
    omega

/-- A read of bytes no write touched. -/
theorem read_write_out {m : Mem} {a n b k : Nat} {f : Nat → UInt8}
    (h : b + k ≤ a ∨ a + n ≤ b) : (m.write a n f).read b k = m.read b k :=
  read_congr fun i hi => write_out (by omega)

theorem read_getElem? (m : Mem) (a n i : Nat) :
    (m.read a n)[i]? = if i < n then some (m (a + i)) else none := by
  induction n generalizing a i with
  | zero => simp
  | succ n ih =>
    cases i with
    | zero => simp [read]
    | succ i =>
      rw [read, List.getElem?_cons_succ, ih, Nat.add_right_comm]
      simp only [Nat.add_lt_add_iff_right, Nat.add_assoc]

theorem read_drop_take (m : Mem) (a n off len : Nat) :
    ((m.read a n).drop off).take len = m.read (a + off) (min len (n - off)) := by
  rcases Nat.le_total off n with h | h
  · obtain ⟨k, rfl⟩ := Nat.exists_eq_add_of_le h
    rw [read_add, List.drop_left' (read_length ..), Nat.add_sub_cancel_left]
    rcases Nat.le_total len k with hl | hl
    · obtain ⟨j, rfl⟩ := Nat.exists_eq_add_of_le hl
      rw [Nat.min_eq_left hl, read_add, List.take_left' (read_length ..)]
    · rw [Nat.min_eq_right hl, List.take_of_length_le (by rwa [read_length])]
  · rw [List.drop_eq_nil_of_le (by rwa [read_length]), Nat.sub_eq_zero_of_le h, Nat.min_zero,
      List.take_nil, read_zero]

/-- Reading a range back that a write covered from inside it or from its end. -/
theorem read_write (m : Mem) (a n off k : Nat) (f : Nat → UInt8) (h : off ≤ n) :
    (m.write (a + off) k f).read a (max n (off + k)) =
      (m.read a n).take off ++ read f 0 k ++ (m.read a n).drop (off + k) := by
  have htake : (m.read a n).take off = (m.write (a + off) k f).read a off := by
    obtain ⟨j, rfl⟩ := Nat.exists_eq_add_of_le h
    rw [read_add, List.take_left' (read_length ..)]
    exact (read_write_out (by omega)).symm
  have hmid : read f 0 k = (m.write (a + off) k f).read (a + off) k :=
    read_eq_iff.mpr fun i hi => by rw [write_in hi, Nat.zero_add]
  have hdrop : (m.read a n).drop (off + k) =
      (m.write (a + off) k f).read (a + (off + k)) (n - (off + k)) := by
    rw [read_write_out (by omega)]
    have := read_drop_take m a n (off + k) n
    rw [List.take_of_length_le (by rw [List.length_drop, read_length]; omega)] at this
    rw [this, Nat.min_eq_right (by omega)]
  have hmax : max n (off + k) = off + k + (n - (off + k)) := by omega
  rw [htake, hmid, hdrop, hmax, read_add, read_add]

/-! ## C ints -/

/-- Byte `k` of the two's-complement representation of an `int`. -/
def intByte (v : Int) (k : Nat) : UInt8 := UInt8.ofNat ((v % 2 ^ 32).toNat / 256 ^ k)

def storeInt (m : Mem) (a : Nat) (v : Int) : Mem := m.write a 4 (intByte v)

def loadInt (m : Mem) (a : Nat) : Int :=
  let u := (m a).toNat + 256 * (m (a + 1)).toNat + 65536 * (m (a + 2)).toNat +
    16777216 * (m (a + 3)).toNat
  if u < 2 ^ 31 then (u : Int) else (u : Int) - 2 ^ 32

theorem loadInt_congr {m m' : Mem} {a : Nat} (h : ∀ i, i < 4 → m (a + i) = m' (a + i)) :
    m.loadInt a = m'.loadInt a := by
  have h0 := h 0 (by omega)
  have h1 := h 1 (by omega)
  have h2 := h 2 (by omega)
  have h3 := h 3 (by omega)
  rw [Nat.add_zero] at h0
  simp only [loadInt, h0, h1, h2, h3]

theorem loadInt_write_out {m : Mem} {a n b : Nat} {f : Nat → UInt8}
    (h : b + 4 ≤ a ∨ a + n ≤ b) : (m.write a n f).loadInt b = m.loadInt b :=
  loadInt_congr fun i hi => write_out (by omega)

theorem intByte_toNat (v : Int) (k : Nat) :
    (intByte v k).toNat = (v % 2 ^ 32).toNat / 256 ^ k % 256 := by
  simp [intByte]

theorem loadInt_storeInt {m : Mem} {a : Nat} {v : Int} (hlo : -2 ^ 31 ≤ v) (hhi : v < 2 ^ 31) :
    (m.storeInt a v).loadInt a = v := by
  have hb : ∀ i, i < 4 → m.storeInt a v (a + i) = intByte v i := fun i hi => write_in hi
  have h0 := hb 0 (by omega)
  rw [Nat.add_zero] at h0
  simp only [loadInt, h0, hb 1 (by omega), hb 2 (by omega), hb 3 (by omega), intByte_toNat]
  obtain ⟨u, hu⟩ : ∃ u : Nat, (v % 2 ^ 32).toNat = u := ⟨_, rfl⟩
  rw [hu]
  simp only [Nat.reducePow, Nat.div_one]
  split <;> omega

/-! ## C strings -/

/-- The bytes before the first NUL among the `n` from address `a` on. -/
def cstr (m : Mem) (a n : Nat) : List UInt8 := (m.read a n).takeWhile (· ≠ 0)

theorem cstr_congr {m m' : Mem} {a n : Nat} (h : ∀ i, i < n → m (a + i) = m' (a + i)) :
    m.cstr a n = m'.cstr a n := by
  unfold cstr
  rw [read_congr h]

theorem cstr_succ (m : Mem) (a n : Nat) :
    m.cstr a (n + 1) = if m a = 0 then [] else m a :: m.cstr (a + 1) n := by
  simp only [cstr, read, List.takeWhile_cons]
  by_cases h : m a = 0 <;> simp [h]

theorem zero_not_mem_cstr (m : Mem) (a n : Nat) : 0 ∉ m.cstr a n := by
  induction n generalizing a with
  | zero => simp [cstr]
  | succ n ih =>
    rw [cstr_succ]
    split
    · simp
    · next h => simp [ih, Ne.symm h]

/-- A string shorter than the bytes it is looked for in ends in a NUL. -/
theorem cstr_nul {m : Mem} {a n : Nat} (h : (m.cstr a n).length < n) :
    m (a + (m.cstr a n).length) = 0 := by
  induction n generalizing a with
  | zero => omega
  | succ n ih =>
    rw [cstr_succ] at h ⊢
    split
    · next h0 => exact h0
    · next h0 =>
      rw [if_neg h0, List.length_cons] at h
      rw [List.length_cons, Nat.add_comm _ 1, ← Nat.add_assoc]
      exact ih (by omega)

theorem cstr_length_lt_iff {m : Mem} {a n : Nat} :
    (m.cstr a n).length < n ↔ ∃ i, i < n ∧ m (a + i) = 0 := by
  refine ⟨?_, ?_⟩
  · intro h
    exact ⟨_, h, cstr_nul h⟩
  · intro h
    obtain ⟨i, hi, h0⟩ := h
    induction n generalizing a i with
    | zero => omega
    | succ n ih =>
      rw [cstr_succ]
      split
      · simp
      · next hne =>
        cases i with
        | zero => exact absurd h0 hne
        | succ i =>
          have := ih (a := a + 1) i (by omega) (by rwa [Nat.add_right_comm, Nat.add_assoc])
          rw [List.length_cons]
          omega

/-- A string that ends within `n` bytes is the same looked for in more. -/
theorem cstr_of_le {m : Mem} {a n k : Nat} (h : (m.cstr a n).length < n) (hk : n ≤ k) :
    m.cstr a k = m.cstr a n := by
  induction n generalizing a k with
  | zero => omega
  | succ n ih =>
    obtain ⟨k, rfl⟩ : ∃ j, k = j + 1 := ⟨k - 1, by omega⟩
    rw [cstr_succ] at h
    rw [cstr_succ, cstr_succ]
    by_cases h0 : m a = 0
    · rw [if_pos h0, if_pos h0]
    · rw [if_neg h0, List.length_cons] at h
      rw [if_neg h0, if_neg h0, ih (by omega) (by omega)]

/-- `strcmp` of the bytes at `a` with the NUL-free `s` returns 0. -/
def strEq (m : Mem) (a : Nat) : List UInt8 → Bool
  | [] => m a == 0
  | c :: s => m a == c && strEq m (a + 1) s

/-- `strncmp` of the bytes at `a` with the NUL-free `s` returns 0 within `n`
characters. -/
def strnEq (m : Mem) (a : Nat) : List UInt8 → Nat → Bool
  | _, 0 => true
  | [], _ + 1 => m a == 0
  | c :: s, n + 1 => m a == c && strnEq m (a + 1) s n

theorem strEq_iff {m : Mem} {s : List UInt8} (hs : 0 ∉ s) {a n : Nat} (hn : s.length < n) :
    m.strEq a s = true ↔ m.cstr a n = s := by
  induction s generalizing a n with
  | nil =>
    obtain ⟨n, rfl⟩ : ∃ k, n = k + 1 := ⟨n - 1, by simp at hn; omega⟩
    rw [cstr_succ]
    simp [strEq]
  | cons c s ih =>
    obtain ⟨n, rfl⟩ : ∃ k, n = k + 1 := ⟨n - 1, by simp at hn; omega⟩
    have hc : c ≠ 0 := fun h => hs (by simp [h])
    have hs' : 0 ∉ s := fun h => hs (List.mem_cons_of_mem _ h)
    rw [cstr_succ]
    simp only [strEq, Bool.and_eq_true, beq_iff_eq, ih hs' (by simpa using hn : s.length < n)]
    by_cases h : m a = 0
    · simp [h, hc.symm]
    · simp [h]

theorem strnEq_iff {m : Mem} {s : List UInt8} (hs : 0 ∉ s) {a n : Nat} :
    m.strnEq a s n = true ↔ m.cstr a n = s.take n := by
  induction n generalizing a s with
  | zero => cases s <;> simp [strnEq, cstr]
  | succ n ih =>
    rw [cstr_succ]
    cases s with
    | nil => simp [strnEq]
    | cons c s =>
      have hc : c ≠ 0 := fun h => hs (by simp [h])
      have hs' : 0 ∉ s := fun h => hs (List.mem_cons_of_mem _ h)
      simp only [strnEq, Bool.and_eq_true, beq_iff_eq, ih hs', List.take_succ_cons]
      by_cases h : m a = 0
      · simp [h, hc.symm]
      · simp [h]

/-- Byte `i` of what `strncpy` copies: `s`, then NULs. -/
def padded (s : List UInt8) (i : Nat) : UInt8 := s.getD i 0

/-- The first bytes of a string, read from the string itself. -/
theorem read_padded (s : List UInt8) (k : Nat) (hk : k ≤ s.length) :
    Mem.read (padded s) 0 k = s.take k := by
  apply List.ext_getElem?
  intro i
  rw [read_getElem?, List.getElem?_take, Nat.zero_add]
  split
  · next hi =>
    have hlt : i < s.length := by omega
    rw [padded, List.getD_eq_getElem?_getD, List.getElem?_eq_getElem hlt]
    rfl
  · rfl

/-- A NUL-padded copy of a string that leaves room for its NUL reads back. -/
theorem cstr_padded {m : Mem} {s : List UInt8} (hs : 0 ∉ s) {a n : Nat} (hn : s.length < n)
    (hm : ∀ i, i < n → m (a + i) = padded s i) : m.cstr a n = s := by
  induction s generalizing a n with
  | nil =>
    obtain ⟨n, rfl⟩ : ∃ k, n = k + 1 := ⟨n - 1, by simp at hn; omega⟩
    have h0 := hm 0 (by omega)
    rw [cstr_succ]
    simp [padded] at h0
    simp [h0]
  | cons c s ih =>
    obtain ⟨n, rfl⟩ : ∃ k, n = k + 1 := ⟨n - 1, by simp at hn; omega⟩
    have hc : c ≠ 0 := fun h => hs (by simp [h])
    have hs' : 0 ∉ s := fun h => hs (List.mem_cons_of_mem _ h)
    have h0 : m a = c := by simpa [padded] using hm 0 (by omega)
    have htail : m.cstr (a + 1) n = s := by
      apply ih hs' (by simpa using hn)
      intro i hi
      have := hm (i + 1) (by omega)
      simpa [padded, Nat.add_comm, Nat.add_left_comm] using this
    rw [cstr_succ, h0, if_neg hc, htail]

/-- The string at bytes that were written without a NUL after them: it goes on with
what stood there. -/
theorem cstr_write_padded {m : Mem} {s : List UInt8} (hs : 0 ∉ s) {a n : Nat} (hn : s.length ≤ n) :
    (m.write a s.length (padded s)).cstr a n = s ++ m.cstr (a + s.length) (n - s.length) := by
  obtain ⟨k, rfl⟩ := Nat.exists_eq_add_of_le hn
  have hfirst : (m.write a s.length (padded s)).read a s.length = s := by
    have hpad : Mem.read (padded s) 0 s.length = s := by
      rw [read_padded s _ (Nat.le_refl _), List.take_length]
    refine Eq.trans (read_eq_iff.mpr fun i hi => ?_) hpad
    rw [write_in hi, Nat.zero_add]
  unfold cstr
  rw [read_add, hfirst, read_write_out (.inr (Nat.le_refl _)), Nat.add_sub_cancel_left]
  apply List.takeWhile_append_of_pos
  intro c hc
  simp only [ne_eq, decide_eq_true_eq]
  intro h0
  exact hs (h0 ▸ hc)

/-- A string and its NUL, stored from address `a` on. -/
def storeStr (m : Mem) (a : Nat) (s : List UInt8) : Mem := m.write a (s.length + 1) (padded s)

/-- A stored string reads back where there is room for its NUL. -/
theorem cstr_storeStr {m : Mem} {s : List UInt8} (hs : 0 ∉ s) {a n : Nat} (hn : s.length < n) :
    (m.storeStr a s).cstr a n = s := by
  have hcut : (m.storeStr a s).cstr a (s.length + 1) = s :=
    cstr_padded hs (Nat.lt_succ_self _) fun i hi => write_in hi
  rw [cstr_of_le (by rw [hcut]; exact Nat.lt_succ_self _) hn, hcut]

theorem read_storeStr (m : Mem) (a : Nat) (s : List UInt8) :
    (m.storeStr a s).read a (s.length + 1) = s ++ [0] := by
  have hnul : padded s s.length = 0 := by simp [padded]
  calc (m.storeStr a s).read a (s.length + 1)
      = read (padded s) 0 (s.length + 1) :=
        read_eq_iff.mpr fun i hi => by rw [storeStr, write_in hi, Nat.zero_add]
    _ = s ++ [0] := by
        rw [read_add, read_padded _ _ (Nat.le_refl _), List.take_length, read, read_zero,
          Nat.zero_add, hnul]

theorem storeStr_out {m : Mem} {s : List UInt8} {a x : Nat} (h : x < a ∨ a + s.length < x) :
    m.storeStr a s x = m x := write_out (by omega)

@[simp] theorem storeStr_storeStr (m : Mem) (a : Nat) (s : List UInt8) :
    (m.storeStr a s).storeStr a s = m.storeStr a s := by
  funext x
  unfold storeStr
  by_cases hx : x < a ∨ a + (s.length + 1) ≤ x
  · rw [write_out hx]
  · obtain ⟨i, rfl⟩ := Nat.exists_eq_add_of_le (by omega : a ≤ x)
    rw [write_in (by omega), write_in (by omega)]

theorem storeStr_head {m : Mem} {s : List UInt8} {a : Nat} {c : UInt8} (h : s.head? = some c) :
    m.storeStr a s a = c := by
  have hc : m.storeStr a s (a + 0) = padded s 0 := write_in (by omega)
  rw [Nat.add_zero] at hc
  rw [hc, padded, List.getD_eq_getElem?_getD, ← List.head?_eq_getElem?, h]
  rfl

end Mem

end MBroker.Lib
