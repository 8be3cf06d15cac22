import MBroker.Lib.Memory

/- `sscanf` and `snprintf` on byte strings, as the C standard describes them. A
   format is a list of directives; the string scanned is what stands before its
   NUL. `%s` takes the next run of bytes that are not white space, so a literal
   byte right after it never matches (`sscanf_word_literal`). `stores` are the
   stores that a scan makes, the NUL after a word included; it changes nothing
   else (`sscanf_out`). -/
namespace MBroker.Lib

/-! ## Scanning -/

/-- `isspace` in the C locale. -/
def isSpace (c : UInt8) : Bool := c == 32 || (9 ≤ c && c ≤ 13)

def isDigit (c : UInt8) : Bool := 48 ≤ c && c ≤ 57

/-- A directive, with the address its conversion stores to. -/
inductive Directive where
  | literal (c : UInt8)
  | word (dst : Nat)
  | integer (dst : Nat)
  deriving DecidableEq, Repr

/-- The bytes `%s` takes. -/
def word (s : List UInt8) : List UInt8 := (s.dropWhile isSpace).takeWhile fun c => !isSpace c

def afterWord (s : List UInt8) : List UInt8 := (s.dropWhile isSpace).dropWhile fun c => !isSpace c

def digitsValue (digits : List UInt8) : Nat := digits.foldl (fun v d => 10 * v + (d.toNat - 48)) 0

/-- What `%d` takes, an optional sign and digits: their value, and what follows. -/
def integer (s : List UInt8) : Option (Int × List UInt8) :=
  let s := s.dropWhile isSpace
  let minus : Bool := s.head? = some 45
  let s := if minus ∨ s.head? = some 43 then s.tail else s
  let digits := s.takeWhile isDigit
  if digits = [] then none
  else some (if minus then -digitsValue digits else digitsValue digits, s.dropWhile isDigit)

/-- `sscanf` whose arguments point into an object of `size` bytes at address 0:
the bytes of the object after it, or nothing when it stores outside the object or
a number that is no `int`. -/
def sscanf (size : Nat) (m : Mem) (s : List UInt8) : List Directive → Option Mem
  | [] => some m
  | .literal c :: ds => if s.head? = some c then sscanf size m s.tail ds else some m
  | .word dst :: ds =>
    if word s = [] then some m
    else if dst + (word s).length < size
    then sscanf size (m.storeStr dst (word s)) (afterWord s) ds else none
  | .integer dst :: ds =>
    match integer s with
    | none => some m
    | some (v, rest) =>
      if dst + 4 ≤ size ∧ -2 ^ 31 ≤ v ∧ v < 2 ^ 31
      then sscanf size (m.storeInt dst v) rest ds else none

/-- The stores of the scan, each with its address and its number of bytes. -/
def stores (s : List UInt8) : List Directive → List (Nat × Nat)
  | [] => []
  | .literal c :: ds => if s.head? = some c then stores s.tail ds else []
  | .word dst :: ds =>
    if word s = [] then [] else (dst, (word s).length + 1) :: stores (afterWord s) ds
  | .integer dst :: ds =>
    match integer s with
    | none => []
    | some (_, rest) => (dst, 4) :: stores rest ds

/-- Where the scan stores nothing, the object is as it was. -/
theorem sscanf_out {size : Nat} {m m' : Mem} {s : List UInt8} {ds : List Directive}
    (h : sscanf size m s ds = some m') {x : Nat}
    (hx : ∀ st ∈ stores s ds, x < st.1 ∨ st.1 + st.2 ≤ x) : m' x = m x := by
  induction ds generalizing m s with
  | nil =>
    cases h
    rfl
  | cons d ds ih =>
    cases d with
    | literal c =>
      unfold sscanf at h
      unfold stores at hx
      by_cases hc : s.head? = some c
      · rw [if_pos hc] at h hx
        exact ih h hx
      · rw [if_neg hc] at h
        cases h
        rfl
    | word dst =>
      unfold sscanf at h
      unfold stores at hx
      by_cases hw : word s = []
      · rw [if_pos hw] at h
        cases h
        rfl
      · rw [if_neg hw] at h hx
        split at h
        · have hout := hx _ List.mem_cons_self
          rw [ih h fun st hst => hx st (List.mem_cons_of_mem _ hst)]
          exact Mem.write_out hout
        · cases h
    | integer dst =>
      unfold sscanf at h
      unfold stores at hx
      cases hi : integer s with
      | none =>
        rw [hi] at h
        cases h
        rfl
      | some p =>
        rw [hi] at h hx
        dsimp only at h hx
        split at h
        · have hout := hx _ List.mem_cons_self
          rw [ih h fun st hst => hx st (List.mem_cons_of_mem _ hst)]
          exact Mem.write_out hout
        · cases h

theorem isSpace_of_head?_afterWord {s : List UInt8} {c : UInt8}
    (h : (afterWord s).head? = some c) : isSpace c = true := by
  have hc := List.head?_dropWhile_not (fun c => !isSpace c) (s.dropWhile isSpace)
  unfold afterWord at h
  rw [h] at hc
  simpa using hc

theorem head?_afterWord_ne {s : List UInt8} {c : UInt8} (hc : isSpace c = false) :
    (afterWord s).head? ≠ some c := by
  intro h
  rw [isSpace_of_head?_afterWord h] at hc
  cases hc

/-- After `%s`, a literal that is not white space ends the scan. -/
theorem sscanf_word_literal {size dst : Nat} {m : Mem} {s : List UInt8} {c : UInt8}
    (hc : isSpace c = false) (ds : List Directive) :
    sscanf size m s (.word dst :: .literal c :: ds) = sscanf size m s [.word dst] := by
  have hne := head?_afterWord_ne (s := s) hc
  simp only [sscanf, if_neg hne]

theorem stores_word_literal {dst : Nat} {s : List UInt8} {c : UInt8} (hc : isSpace c = false)
    (ds : List Directive) : stores s (.word dst :: .literal c :: ds) =
      if word s = [] then [] else [(dst, (word s).length + 1)] := by
  have hne := head?_afterWord_ne (s := s) hc
  simp only [stores, if_neg hne]

theorem not_isSpace_of_head?_word {s : List UInt8} {c : UInt8}
    (h : (word s).head? = some c) : isSpace c = false := by
  unfold word at h
  rw [List.head?_takeWhile, Option.filter_eq_some_iff] at h
  simpa using h.2

theorem word_sublist (s : List UInt8) : (word s).Sublist s :=
  (List.takeWhile_sublist _).trans (List.dropWhile_sublist _)

theorem word_length_le (s : List UInt8) : (word s).length ≤ s.length := (word_sublist s).length_le

/-- A string that starts with a byte that is not white space has a word, which
starts with that byte. -/
theorem word_cons {c : UInt8} (hc : isSpace c = false) (s : List UInt8) :
    word (c :: s) = c :: s.takeWhile fun c => !isSpace c := by
  simp [word, hc]

/-- A string without a word is white space. -/
theorem word_eq_nil_iff {s : List UInt8} : word s = [] ↔ ∀ c ∈ s, isSpace c = true := by
  induction s with
  | nil => simp [word]
  | cons c s ih =>
    by_cases hc : isSpace c = true
    · have hskip : word (c :: s) = word s := by simp [word, hc]
      rw [hskip, ih, List.forall_mem_cons]
      exact ⟨fun h => ⟨hc, h⟩, fun h => h.2⟩
    · rw [word_cons (by simpa using hc), List.forall_mem_cons]
      simp [hc]

/-! ## Printing -/

/-- The digits of `n`. -/
def decimal (n : Nat) : List UInt8 := (Nat.toDigits 10 n).map fun c => UInt8.ofNat c.toNat

/-- `%d`. -/
def decimalInt (v : Int) : List UInt8 := if v < 0 then 45 :: decimal v.natAbs else decimal v.natAbs

/-- What `snprintf` with limit `n` leaves before the NUL, given what each part of
the format prints. -/
def snprintf (n : Nat) (parts : List (List UInt8)) : List UInt8 := parts.flatten.take (n - 1)

theorem isDigit_of_mem_decimal {n : Nat} {c : UInt8} (h : c ∈ decimal n) : isDigit c = true := by
  obtain ⟨d, hd, rfl⟩ := List.mem_map.mp h
  have hdig := Nat.isDigit_of_mem_toDigits (by decide) (by decide) hd
  rw [Char.isDigit_iff_toNat] at hdig
  have h0 : '0'.toNat = 48 := rfl
  have h9 : '9'.toNat = 57 := rfl
  have hto : (UInt8.ofNat d.toNat).toNat = d.toNat := by
    rw [UInt8.toNat_ofNat']
    omega
  simp only [isDigit, Bool.and_eq_true, decide_eq_true_eq, UInt8.le_iff_toNat_le, hto]
  exact ⟨by simpa [h0] using hdig.1, by simpa [h9] using hdig.2⟩

theorem zero_not_mem_decimal (n : Nat) : 0 ∉ decimal n := by
  intro h
  have := isDigit_of_mem_decimal h
  simp [isDigit] at this

theorem zero_not_mem_decimalInt (v : Int) : 0 ∉ decimalInt v := by
  unfold decimalInt
  split <;> simp [zero_not_mem_decimal]

theorem zero_not_mem_snprintf {n : Nat} {parts : List (List UInt8)} (h : ∀ p ∈ parts, 0 ∉ p) :
    0 ∉ snprintf n parts := by
  intro h0
  obtain ⟨p, hp, h0p⟩ := List.mem_flatten.mp (List.mem_of_mem_take h0)
  exact h p hp h0p

end MBroker.Lib
