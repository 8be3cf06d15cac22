import MBroker.Wire.Register

/- What the decoder stores into each field of a task, whatever text it is given.

   The conversions of both scans go to fields that lie side by side, and none has a
   width. Every format starts with the conversion to `opcode`, a field of one byte,
   and `%s` stores a NUL after what it takes; so any text with a word in it is stored
   past that field, and a text without one leaves the code to what the stack held. -/
namespace MBroker.Wire
open MBroker.Lib
open MBroker.Fs (CString)

/-! ## Stores -/

/-- The fields that the decoder's conversions go to. -/
inductive Field where
  | pipePath
  | opcode
  | boxName
  | message
  | returnValue

def Field.offset : Field → Nat
  | .pipePath => pipePathAt
  | .opcode => opcodeAt
  | .boxName => boxNameAt
  | .message => messageAt
  | .returnValue => returnValueAt

/-- The declared size. -/
def Field.size : Field → Nat
  | .pipePath => pipePathMaxSize
  | .opcode => 1
  | .boxName => maxBoxName
  | .message => messageMaxSize
  | .returnValue => 4

def Field.Covers (f : Field) (x : Nat) : Prop := f.offset ≤ x ∧ x < f.offset + f.size

instance (f : Field) (x : Nat) : Decidable (f.Covers x) := inferInstanceAs (Decidable (_ ∧ _))

/-- The format of the first scan. -/
def codeFormat : List Directive := [.word opcodeAt, .literal bar]

/-- The format that the `switch` has for an operation. -/
def taskFormat : OpCode → Option (List Directive)
  | .loginPub | .loginSub | .createBox | .removeBox =>
    some [.word opcodeAt, .literal bar, .word pipePathAt, .literal bar, .word boxNameAt]
  | .createBoxResponse | .removeBoxResponse =>
    some [.word opcodeAt, .literal bar, .integer returnValueAt, .literal bar, .word messageAt]
  | .list => some [.word opcodeAt, .literal bar, .word pipePathAt]
  | .write | .read => some [.word opcodeAt, .literal bar, .word messageAt]
  | .listBoxesResponse => none

/-- The format of the second scan, empty where there is none. -/
def secondFormat (stack : Mem) (building : CString) : List Directive :=
  match scanTask (clearedTask stack) building codeFormat with
  | .error _ => []
  | .ok builder => ((OpCode.ofCode? (builder opcodeAt)).bind taskFormat).getD []

/-- The stores of both scans. -/
def taskStores (stack : Mem) (building : CString) : List (Nat × Nat) :=
  stores building.bytes codeFormat ++ stores building.bytes (secondFormat stack building)

/-- Every field receives at most its declared size, the NUL included. -/
def Received (st : List (Nat × Nat)) : Prop := ∀ f : Field, ∀ n, (f.offset, n) ∈ st → n ≤ f.size

/-- No bytes of one field go into another. -/
def Apart (st : List (Nat × Nat)) : Prop :=
  ∀ f g : Field, f ≠ g → ∀ n, (f.offset, n) ∈ st →
    ∀ x, f.offset ≤ x → x < f.offset + n → ¬ g.Covers x

/-- The text is decoded to a task whose fields received what fits them, or to one that
the main loop ignores; and no field's bytes go into another. -/
structure Harmless (stack : Mem) (building : CString) : Prop where
  returns : ∃ t, stringToTask stack building = .ok t ∧
    (Received (taskStores stack building) ∨ ¬ Enqueues t.opcode)
  apart : Apart (taskStores stack building)

variable {stack : Mem} {building : CString} {t : Task}

/-! ## The two scans -/

theorem stringToTask_eq (stack : Mem) (building : CString) :
    stringToTask stack building = (do
      let builder ← scanTask (clearedTask stack) building codeFormat
      match (OpCode.ofCode? (builder opcodeAt)).bind taskFormat with
      | none => throw (.exit 1)
      | some format => return ⟨← scanTask builder building format⟩) := by
  unfold stringToTask
  refine bind_congr fun builder => ?_
  cases OpCode.ofCode? (builder opcodeAt) with
  | none => rfl
  | some op => cases op <;> rfl

/-- Every format begins as that of the first scan. -/
theorem taskFormat_eq {op : OpCode} {format : List Directive} (h : taskFormat op = some format) :
    ∃ ds, format = .word opcodeAt :: .literal bar :: ds := by
  cases op <;> cases h <;> exact ⟨_, rfl⟩

theorem secondFormat_eq (stack : Mem) (building : CString) : secondFormat stack building = [] ∨
    ∃ ds, secondFormat stack building = .word opcodeAt :: .literal bar :: ds := by
  unfold secondFormat
  split
  · exact .inl rfl
  · next builder _ =>
    cases hformat : (OpCode.ofCode? (builder opcodeAt)).bind taskFormat with
    | none => exact .inl rfl
    | some format =>
      obtain ⟨op, -, hop⟩ := Option.bind_eq_some_iff.mp hformat
      exact .inr (taskFormat_eq hop)

theorem scanTask_out {m m' : Mem} {format : List Directive}
    (h : scanTask m building format = .ok m') {x : Nat}
    (hx : ∀ st ∈ stores building.bytes format, x < st.1 ∨ st.1 + st.2 ≤ x) : m' x = m x := by
  unfold scanTask at h
  cases hscan : sscanf taskSize m building.bytes format with
  | none =>
    rw [hscan] at h
    cases h
  | some m'' =>
    rw [hscan] at h
    cases h
    exact sscanf_out hscan hx

/-- Outside of the stores the task is as the `memset`s left it. -/
theorem stringToTask_out (h : stringToTask stack building = .ok t) {x : Nat}
    (hx : ∀ st ∈ taskStores stack building, x < st.1 ∨ st.1 + st.2 ≤ x) :
    t.bytes x = clearedTask stack x := by
  rw [stringToTask_eq] at h
  unfold taskStores secondFormat at hx
  cases hfirst : scanTask (clearedTask stack) building codeFormat with
  | error halt =>
    rw [hfirst] at h
    cases h
  | ok builder =>
    rw [hfirst] at h hx
    simp only [bind, Except.bind] at h
    dsimp only at hx
    cases hformat : (OpCode.ofCode? (builder opcodeAt)).bind taskFormat with
    | none =>
      rw [hformat] at h
      cases h
    | some format =>
      rw [hformat] at h hx
      rw [Option.getD_some] at hx
      dsimp only at h
      cases hsecond : scanTask builder building format with
      | error halt =>
        rw [hsecond] at h
        cases h
      | ok builder' =>
        rw [hsecond] at h
        cases h
        calc builder' x
            = builder x := scanTask_out hsecond fun st hst => hx st (List.mem_append_right _ hst)
          _ = clearedTask stack x :=
            scanTask_out hfirst fun st hst => hx st (List.mem_append_left _ hst)

/-- A word goes to the code, with its NUL, and nothing goes anywhere else. -/
theorem mem_taskStores {st : Nat × Nat} : st ∈ taskStores stack building ↔
    word building.bytes ≠ [] ∧ st = (opcodeAt, (word building.bytes).length + 1) := by
  have hstores : ∀ ds, stores building.bytes (.word opcodeAt :: .literal bar :: ds) =
      if word building.bytes = [] then [] else [(opcodeAt, (word building.bytes).length + 1)] :=
    fun ds => stores_word_literal (by decide) ds
  -- the second scan makes the same store, or none
  have hsecond : stores building.bytes (secondFormat stack building) = [] ∨
      stores building.bytes (secondFormat stack building) = stores building.bytes codeFormat := by
    rcases secondFormat_eq stack building with hnil | ⟨ds, hds⟩
    · rw [hnil]
      exact .inl rfl
    · rw [hds, codeFormat, hstores, hstores]
      exact .inr rfl
  have hmem : st ∈ taskStores stack building ↔ st ∈ stores building.bytes codeFormat := by
    unfold taskStores
    rcases hsecond with hnil | hsame
    · rw [hnil, List.append_nil]
    · rw [hsame, List.mem_append, or_self]
  rw [hmem, codeFormat, hstores]
  split <;> simp [*]

theorem not_apart (hw : word building.bytes ≠ []) : ¬ Apart (taskStores stack building) := by
  intro h
  have hpos := List.length_pos_of_ne_nil hw
  -- the NUL of the shortest word is already in the name of the box
  refine h .opcode .boxName (by simp) _ (mem_taskStores.mpr ⟨hw, rfl⟩) boxNameAt (by decide) ?_
    (by decide)
  show opcodeAt + 1 < opcodeAt + ((word building.bytes).length + 1)
  omega

/-- The decoder does no harm with white space, where the stack holds a code it has a
case for, and with nothing else. -/
theorem harmless_iff : Harmless stack building ↔
    (∀ c ∈ building.bytes, isSpace c = true) ∧ HasCase (stack opcodeAt) := by
  rw [← word_eq_nil_iff]
  refine ⟨?_, ?_⟩
  · intro h
    have hw : word building.bytes = [] := by
      by_contra hw
      exact not_apart hw h.apart
    refine ⟨hw, ?_⟩
    obtain ⟨t, ht, -⟩ := h.returns
    obtain ⟨-, hcase, -⟩ := stringToTask_ok_iff.mp ht
    rw [decodedCode, hw] at hcase
    exact hcase
  · intro h
    obtain ⟨hw, hcase⟩ := h
    have hnone : ∀ st, st ∉ taskStores stack building := by
      intro st hst
      exact (mem_taskStores.mp hst).1 hw
    have hfits : WordFits building := by
      unfold WordFits
      rw [hw]
      decide
    have hcode : decodedCode stack building = stack opcodeAt := by
      rw [decodedCode, hw]
      rfl
    refine ⟨⟨_, stringToTask_ok_iff.mpr ⟨hfits, by rwa [hcode], rfl⟩, .inl ?_⟩, ?_⟩
    · intro f n hst
      exact absurd hst (hnone _)
    · intro f g _ n hst
      exact absurd hst (hnone _)

/-- The text `x`. -/
def letterX : CString := ⟨[120], by decide⟩

/-- It ends the process. -/
theorem decoder_exits : ¬ ∀ stack building, building.bytes.length < taskSize →
    Harmless stack building := by
  intro h
  obtain ⟨t, ht, -⟩ := (h (fun _ => 0) letterX (by decide)).returns
  exact stringToTask_of_head (c := 120) (by decide) (not_hasCase rfl) rfl ht

end MBroker.Wire
