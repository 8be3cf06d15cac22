import MBroker.Lib.Memory

/- Records in a stream of bytes, with nothing between them: a name without a NUL and
   numbers of fixed width, the least byte first. The name has no mark at its end; where the
   first number is a multiple of 256, its first byte is one (`takeName_append`). -/
namespace MBroker.Lib

/-- The `n` bytes of a number, the least first. -/
def leBytes : Nat → Nat → List UInt8
  | 0, _ => []
  | n + 1, v => UInt8.ofNat v :: leBytes n (v / 256)

def ofLe : List UInt8 → Nat
  | [] => 0
  | b :: bytes => b.toNat + 256 * ofLe bytes

variable {n v : Nat} {name rest : List UInt8}

@[simp] theorem length_leBytes (n v : Nat) : (leBytes n v).length = n := by
  induction n generalizing v with
  | zero => rfl
  | succ n ih => rw [leBytes, List.length_cons, ih]

theorem ofLe_leBytes (n v : Nat) : ofLe (leBytes n v) = v % 256 ^ n := by
  induction n generalizing v with
  | zero =>
    rw [Nat.pow_zero, Nat.mod_one]
    rfl
  | succ n ih =>
    have hbyte : (UInt8.ofNat v).toNat = v % 256 := UInt8.toNat_ofNat'
    rw [leBytes, ofLe, ih, hbyte, Nat.pow_succ', Nat.mod_mul]

/-- The bytes of a number as a loop over their places stores them. -/
theorem leBytes_eq_read (n v a : Nat) {m : Mem}
    (h : ∀ k, k < n → m (a + k) = UInt8.ofNat (v / 256 ^ k)) : m.read a n = leBytes n v := by
  induction n generalizing v a with
  | zero => rfl
  | succ n ih =>
    rw [Mem.read, leBytes]
    have hfirst := h 0 (Nat.succ_pos n)
    rw [Nat.add_zero, Nat.pow_zero, Nat.div_one] at hfirst
    rw [hfirst, ih]
    intro k hk
    have hnext := h (k + 1) (Nat.succ_lt_succ hk)
    rw [Nat.add_right_comm, Nat.add_assoc, hnext, Nat.div_div_eq_div_mul, ← Nat.pow_succ']

/-- The bytes up to the first NUL, and those from there on. -/
def takeName (bytes : List UInt8) : List UInt8 × List UInt8 :=
  (bytes.takeWhile (· ≠ 0), bytes.dropWhile (· ≠ 0))

/-- A number that is a multiple of 256 ends the name before it. -/
theorem takeName_append (hname : 0 ∉ name) (hv : v % 256 = 0) :
    takeName (name ++ (leBytes (n + 1) v ++ rest)) = (name, leBytes (n + 1) v ++ rest) := by
  have hzero : UInt8.ofNat v = 0 := by
    apply UInt8.toNat_inj.mp
    rw [UInt8.toNat_ofNat', hv]
    rfl
  have hpos : ∀ b ∈ name, decide (b ≠ 0) = true := by
    intro b hb
    rw [decide_eq_true_iff]
    rintro rfl
    exact hname hb
  unfold takeName
  rw [List.takeWhile_append_of_pos hpos, List.dropWhile_append_of_pos hpos, leBytes, hzero]
  simp

end MBroker.Lib
