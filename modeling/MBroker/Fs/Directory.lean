import MBroker.Fs.State

/- The directory as entries. The code reads and writes a directory block byte by
   byte; the lemmas here say what each of its three writes (labelling every entry
   empty, filling an entry, clearing an entry) does to the entries' inode numbers
   and names, and which bytes none of them touches. -/
namespace MBroker.Fs
open MBroker.Lib

/-- `dir_entry[i].d_inumber` of the directory block at `base`. -/
def entryInum (m : Mem) (base i : Nat) : Int := m.loadInt (dInumber base i)

/-- `dir_entry[i].d_name` as a C string; all 40 bytes when none of them is NUL. -/
def entryName (m : Mem) (base i : Nat) : List UInt8 := m.cstr (dName base i) maxFileName

/-- Entry `i` filled the way `add_dir_entry` fills it. -/
def writeEntry (m : Mem) (base i : Nat) (name : List UInt8) (inum : Int) : Mem :=
  let data := m.storeInt (dInumber base i) inum
  let data := data.write (dName base i) (maxFileName - 1) (Mem.padded name)
  data.write (dName base i + (maxFileName - 1)) 1 fun _ => 0

/-- Entry `i` cleared the way `clear_dir_entry` clears it. -/
def clearEntry (m : Mem) (base i : Nat) : Mem :=
  (m.storeInt (dInumber base i) (-1)).write (dName base i) maxFileName fun _ => 0

/-- Entries read from memories that agree on the entry's bytes. -/
theorem entryInum_congr {m m' : Mem} {base i : Nat}
    (h : ∀ x, dName base i ≤ x → x < dName base i + dirEntrySize → m x = m' x) :
    entryInum m base i = entryInum m' base i :=
  Mem.loadInt_congr fun k hk => h _ (by simp [dInumber]; omega)
    (by simp [dInumber, dirEntrySize, maxFileName]; omega)

theorem entryName_congr {m m' : Mem} {base i : Nat}
    (h : ∀ x, dName base i ≤ x → x < dName base i + dirEntrySize → m x = m' x) :
    entryName m base i = entryName m' base i :=
  Mem.cstr_congr fun k hk => h _ (by omega) (by simp [dirEntrySize, maxFileName] at *; omega)

/-- The bytes of two different entries are apart. -/
theorem dName_apart {base i j x : Nat} (hij : i ≠ j) (hlo : dName base i ≤ x)
    (hhi : x < dName base i + dirEntrySize) :
    x < dName base j ∨ dName base j + dirEntrySize ≤ x := by
  simp only [dName, dirEntrySize] at *
  omega

/-- The entries below `n` lie in `n * dirEntrySize` bytes. -/
theorem dName_lt {base i n x : Nat} (hi : i < n) (hhi : x < dName base i + dirEntrySize) :
    x < base + n * dirEntrySize := by
  simp only [dName, dirEntrySize] at *
  omega

/-! ## Filling an entry -/

theorem writeEntry_out {m : Mem} {base i x : Nat} {name : List UInt8} {inum : Int}
    (h : x < dName base i ∨ dName base i + dirEntrySize ≤ x) :
    writeEntry m base i name inum x = m x := by
  simp only [dirEntrySize] at h
  unfold writeEntry Mem.storeInt
  rw [Mem.write_out (by simp only [maxFileName]; omega),
    Mem.write_out (by simp only [maxFileName]; omega),
    Mem.write_out (by simp only [dInumber, maxFileName]; omega)]

theorem entryInum_writeEntry {m : Mem} {base i : Nat} {name : List UInt8} {inum : Int}
    (hlo : -2 ^ 31 ≤ inum) (hhi : inum < 2 ^ 31) :
    entryInum (writeEntry m base i name inum) base i = inum := by
  unfold entryInum writeEntry
  rw [Mem.loadInt_write_out (by simp only [dInumber, maxFileName]; omega),
    Mem.loadInt_write_out (by simp only [dInumber, maxFileName]; omega),
    Mem.loadInt_storeInt hlo hhi]

theorem entryName_writeEntry {m : Mem} {base i : Nat} {name : List UInt8} {inum : Int}
    (hn : 0 ∉ name) (hl : name.length ≤ 39) :
    entryName (writeEntry m base i name inum) base i = name := by
  unfold entryName
  apply Mem.cstr_padded hn (by simp only [maxFileName]; omega)
  intro k hk
  unfold writeEntry
  simp only [maxFileName] at hk ⊢
  by_cases h39 : k = 39
  · subst h39
    have hpad : Mem.padded name 39 = 0 := by simp [Mem.padded, List.getD, hl]
    rw [hpad]
    exact Mem.write_in (i := 0) (by omega)
  · rw [Mem.write_out (by omega), Mem.write_in (by omega)]

theorem entryInum_writeEntry_ne {m : Mem} {base i j : Nat} {name : List UInt8} {inum : Int}
    (hij : j ≠ i) : entryInum (writeEntry m base i name inum) base j = entryInum m base j :=
  entryInum_congr fun _ hlo hhi => writeEntry_out (dName_apart hij hlo hhi)

theorem entryName_writeEntry_ne {m : Mem} {base i j : Nat} {name : List UInt8} {inum : Int}
    (hij : j ≠ i) : entryName (writeEntry m base i name inum) base j = entryName m base j :=
  entryName_congr fun _ hlo hhi => writeEntry_out (dName_apart hij hlo hhi)

/-! ## Clearing an entry -/

theorem clearEntry_out {m : Mem} {base i x : Nat}
    (h : x < dName base i ∨ dName base i + dirEntrySize ≤ x) : clearEntry m base i x = m x := by
  simp only [dirEntrySize] at h
  unfold clearEntry Mem.storeInt
  rw [Mem.write_out (by simp only [maxFileName]; omega),
    Mem.write_out (by simp only [dInumber, maxFileName]; omega)]

theorem entryInum_clearEntry (m : Mem) (base i : Nat) :
    entryInum (clearEntry m base i) base i = -1 := by
  unfold entryInum clearEntry
  rw [Mem.loadInt_write_out (by simp only [dInumber]; omega),
    Mem.loadInt_storeInt (by decide) (by decide)]

theorem entryName_clearEntry (m : Mem) (base i : Nat) :
    entryName (clearEntry m base i) base i = [] := by
  unfold entryName
  apply Mem.cstr_padded (by simp) (by simp [maxFileName])
  intro k hk
  unfold clearEntry
  rw [Mem.write_in hk]
  rfl

theorem entryInum_clearEntry_ne {m : Mem} {base i j : Nat} (hij : j ≠ i) :
    entryInum (clearEntry m base i) base j = entryInum m base j :=
  entryInum_congr fun _ hlo hhi => clearEntry_out (dName_apart hij hlo hhi)

theorem entryName_clearEntry_ne {m : Mem} {base i j : Nat} (hij : j ≠ i) :
    entryName (clearEntry m base i) base j = entryName m base j :=
  entryName_congr fun _ hlo hhi => clearEntry_out (dName_apart hij hlo hhi)

/-! ## Labelling every entry empty -/

theorem entryInum_emptyEntries {m : Mem} {base n i : Nat} (hi : i < n) :
    entryInum (emptyEntries m base n) base i = -1 := by
  induction n with
  | zero => omega
  | succ n ih =>
    unfold emptyEntries
    by_cases hin : i = n
    · subst hin
      exact Mem.loadInt_storeInt (by decide) (by decide)
    · rw [← ih (by omega)]
      unfold entryInum Mem.storeInt
      exact Mem.loadInt_write_out (by simp only [dInumber, dName, dirEntrySize]; omega)

/-! ## Comparing names -/

/-- On an entry whose name ends in its field, `strncmp` over 40 characters is
equality of names, however long the name looked for is. -/
theorem strnEq_entryName {m : Mem} {base i : Nat} {name : CString}
    (hl : (entryName m base i).length ≤ 39) :
    m.strnEq (dName base i) name.bytes maxFileName = true ↔ entryName m base i = name.bytes := by
  rw [Mem.strnEq_iff name.noNul]
  show entryName m base i = _ ↔ _
  refine ⟨?_, ?_⟩
  · intro h
    have hlen : (entryName m base i).length = min 40 name.bytes.length := by
      rw [h, List.length_take]
      rfl
    rw [h, List.take_of_length_le (by simp only [maxFileName]; omega)]
  · intro h
    rw [h] at hl ⊢
    rw [List.take_of_length_le (by simp only [maxFileName]; omega)]

/-- `strcmp` with a name that fits an entry is equality of names. -/
theorem strEq_entryName {m : Mem} {base i : Nat} {name : CString}
    (hl : name.bytes.length ≤ 39) :
    m.strEq (dName base i) name.bytes = true ↔ entryName m base i = name.bytes :=
  Mem.strEq_iff name.noNul (by simp only [maxFileName]; omega)

end MBroker.Fs
