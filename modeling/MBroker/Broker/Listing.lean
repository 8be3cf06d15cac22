import MBroker.Broker.Server

/- The list of boxes, from `box_list_boxes` of the broker to what the manager prints. The
   broker sorts its table and writes a byte for the code, a byte for the count and for each
   box its name, without a NUL, and three counters. The manager reads 63 bytes of that and
   decodes them like a request; the case for the code of a list is commented out in the
   decoder, so it exits before it comes to its own reading of a count and of names.

   Opening, writing and closing the manager's pipe succeeds, and what is written is in the
   pipe when the manager reads. -/
namespace MBroker.Broker
open MBroker.Lib MBroker.Wire Function
open MBroker.Fs (CString)

/-- `strcmp` of two strings: its sign is that of the first difference. -/
def strcmp : List UInt8 → List UInt8 → Int
  | [], [] => 0
  | [], d :: _ => -d.toNat
  | c :: _, [] => c.toNat
  | c :: s, d :: t => if c = d then strcmp s t else c.toNat - d.toNat

/-! ## The broker -/

namespace Server

/-- `box_list_boxes_aux`. -/
def boxListBoxesAux (s : Server) (a b : MailBox) : Int :=
  strcmp (nameOf s.tasks a).bytes (nameOf s.tasks b).bytes

/-- The `qsort` of the boxes. -/
def sortBoxes (s : Server) : Server :=
  let sorted := s.table.mergeSort fun a b => s.boxListBoxesAux a b ≤ 0
  { s with boxes := fun i => if 0 ≤ i then sorted.getD i.toNat (s.boxes i) else s.boxes i }

/-- A `uint64_t` stored. -/
def storeCounter (m : Mem) (a : Nat) (v : UInt64) : Mem :=
  m.write a 8 fun k => UInt8.ofNat (v.toNat / 256 ^ k)

/-- The box put at `offset` of the response, and the offset behind it. -/
def storeBox (tasks : Addr → Task) (response : Mem) (offset : Nat) (box : MailBox) : Mem × Nat :=
  let name := (nameOf tasks box).bytes
  let response := response.write offset name.length (Mem.padded name)
  let offset := offset + name.length
  let response := storeCounter response offset box.boxSize
  let response := storeCounter response (offset + 8) box.numPublishers
  let response := storeCounter response (offset + 16) box.numSubscribers
  (response, offset + 24)

def storeBoxes (tasks : Addr → Task) : Mem → Nat → List MailBox → Mem
  | response, _, [] => response
  | response, offset, box :: boxes =>
    let (response, offset) := storeBox tasks response offset box
    storeBoxes tasks response offset boxes

/-- `sizeof(response)` for so many boxes. -/
def listResponseSize (n : Nat) : Nat := 2 + n * (maxBoxName + 24)

/-- The table as it is left, and what is written to the client; `stack` is what the
response held. -/
def boxListBoxes (s : Server) (stack : Mem) : Server × List UInt8 :=
  if s.currentBoxes = 0 then (s, [OpCode.listBoxesResponse.code, 0])
  else
    let s := s.sortBoxes
    let response := stack.write 0 1 fun _ => OpCode.listBoxesResponse.code
    let response := response.write 1 1 (Mem.intByte s.currentBoxes)
    (s, (storeBoxes s.tasks response 2 s.table).read 0 (listResponseSize s.size))

/-- The names of that many boxes at most, no two the same, that fit their field. -/
structure Listable (s : Server) : Prop where
  count : 0 ≤ s.currentBoxes ∧ s.currentBoxes ≤ maxBoxes
  nodup : s.names.Nodup
  short : ∀ name ∈ s.names, name.bytes.length < maxBoxName

/-- `"NO BOXES FOUND"`. -/
def noBoxesFound : CString :=
  ⟨[78, 79, 32, 66, 79, 88, 69, 83, 32, 70, 79, 85, 78, 68], by decide⟩

/-- The lines are the names of the boxes, each once and in order, or say that there are
none. -/
def Listed (s : Server) (lines : List CString) : Prop :=
  if s.currentBoxes = 0 then lines = [noBoxesFound]
  else lines.Perm s.names ∧ lines.Pairwise fun a b => strcmp a.bytes b.bytes ≤ 0

end Server

/-! ## The manager -/

/-- `sizeof(res_list)`. -/
def resListSize : Nat := 63

def maxNumBoxes : Nat := 1024
def pathMaxSize : Nat := 32

/-- What the manager prints, and what its `main` returns unless it ends before. -/
structure Printout where
  lines : List CString
  ended : Except Halt Int

/-- What the locals of the manager hold before they are read into. -/
structure Manager where
  resList : Mem
  /-- The decoder's. -/
  stack : Mem
  numBoxes : Mem
  boxNames : Mem

namespace Manager

/-- `box_names[i]` as `printf` prints it. -/
def row (boxNames : Mem) (i : Nat) : Option CString :=
  if i < maxNumBoxes then
    bufferString (fun k => boxNames (i * pathMaxSize + k)) ((maxNumBoxes - i) * pathMaxSize)
  else none

/-- The loop that prints the names, for `n` of them from row `i` on. -/
def printNames (boxNames : Mem) : Nat → Nat → Printout
  | 0, _ => ⟨[], .ok 0⟩
  | n + 1, i =>
    match row boxNames i with
    | none => ⟨[], .error (.fault .undefined)⟩
    | some line =>
      let rest := printNames boxNames n (i + 1)
      { rest with lines := line :: rest.lines }

/-- What `main` does with the rest of the pipe. -/
def readNames (m : Manager) (pipe : List UInt8) : Printout :=
  let count := pipe.take 4
  let pipe := pipe.drop 4
  let numBoxes := (m.numBoxes.write 0 count.length (Mem.padded count)).loadInt 0
  let len := (numBoxes * pipePathMaxSize % 2 ^ 64).toNat
  -- a count above SSIZE_MAX is refused
  if 2 ^ 63 ≤ len then ⟨[], .ok (-1)⟩
  else
    let names := pipe.take len
    if maxNumBoxes * pathMaxSize < names.length then ⟨[], .error (.fault .undefined)⟩
    else printNames (m.boxNames.write 0 names.length (Mem.padded names)) numBoxes.toNat 0

/-- The manager from its first read on, with this in its pipe. -/
def list (m : Manager) (pipe : List UInt8) : Printout :=
  let response := pipe.take resListSize
  match bufferString (m.resList.write 0 response.length (Mem.padded response)) resListSize with
  | none => ⟨[], .error (.fault .undefined)⟩
  | some building =>
    match stringToTask m.stack building with
    | .error halt => ⟨[], .error halt⟩
    | .ok newTask =>
      if newTask.returnValue = 0 then m.readNames (pipe.drop resListSize)
      -- the pipe is closed, and the read of the count fails
      else ⟨[Server.noBoxesFound], .ok (-1)⟩

end Manager

open Server

variable {s : Server} {stack : Mem} {m : Manager}

/-! ## End to end -/

theorem storeCounter_zero {m : Mem} {a : Nat} {v : UInt64} (ha : 0 < a) :
    storeCounter m a v 0 = m 0 := Mem.write_out (.inl ha)

/-- The boxes are stored behind the code. -/
theorem storeBoxes_zero (tasks : Addr → Task) {response : Mem} {offset : Nat} (ho : 0 < offset)
    (boxes : List MailBox) : storeBoxes tasks response offset boxes 0 = response 0 := by
  induction boxes generalizing response offset with
  | nil => rfl
  | cons box boxes ih =>
    unfold storeBoxes storeBox
    dsimp only
    rw [ih (by omega), storeCounter_zero (by omega), storeCounter_zero (by omega),
      storeCounter_zero (by omega), Mem.write_out (.inl ho)]

theorem boxListBoxes_head (s : Server) (stack : Mem) :
    (s.boxListBoxes stack).2.head? = some OpCode.listBoxesResponse.code := by
  unfold boxListBoxes
  split
  · rfl
  · obtain ⟨n, hn⟩ : ∃ n, listResponseSize s.sortBoxes.size = n + 1 :=
      Nat.exists_eq_succ_of_ne_zero (by unfold listResponseSize; omega)
    dsimp only
    rw [hn, Mem.read, List.head?_cons, storeBoxes_zero _ (by omega),
      Mem.write_out (.inl Nat.zero_lt_one)]
    exact congrArg some (Mem.write_in (a := 0) (i := 0) Nat.zero_lt_one)

/-- A text that begins with the code of the response is decoded to nothing. -/
theorem list_of_head {pipe : List UInt8} (m : Manager)
    (h : pipe.head? = some OpCode.listBoxesResponse.code) :
    (m.list pipe).lines = [] ∧ ∃ halt, (m.list pipe).ended = .error halt := by
  have hcase : ¬ HasCase OpCode.listBoxesResponse.code := by
    intro hc
    obtain ⟨op, hop, hne⟩ := hc
    exact hne (Option.some.inj hop).symm
  have hfirst : (pipe.take resListSize).head? = some 8 := by
    obtain ⟨rest, rfl⟩ := List.head?_eq_some_iff.mp h
    rfl
  unfold Manager.list
  dsimp only
  cases hstring : bufferString (m.resList.write 0 (pipe.take resListSize).length
      (Mem.padded (pipe.take resListSize))) resListSize with
  | none => exact ⟨rfl, _, rfl⟩
  | some building =>
    dsimp only
    cases hdecode : stringToTask m.stack building with
    | error halt => exact ⟨rfl, halt, rfl⟩
    | ok t =>
      refine absurd hdecode (received_not_decoded ?_ hfirst ?_ ?_ hcase hstring)
      all_goals decide

/-- Whatever boxes there are, the manager does not list them. -/
theorem boxes_not_listed (h0 : 0 ≤ s.currentBoxes) (stack : Mem) (m : Manager) :
    ¬ s.Listed (m.list (s.boxListBoxes stack).2).lines := by
  obtain ⟨hnone, -⟩ := list_of_head m (boxListBoxes_head s stack)
  rw [hnone]
  unfold Listed
  split
  · intro hlines
    cases hlines
  · next hsome =>
    intro hlines
    -- there is a name, and it is not printed
    have hlength := hlines.1.length_eq
    rw [length_names, List.length_nil] at hlength
    unfold size at hlength
    omega

/-- The table with the box `/b` in it. -/
def tableB : Server :=
  { started with
    tasks := fun _ => requestFor .createBox Fs.pathB
    currentBoxes := 1 }

theorem tableB_listable : tableB.Listable where
  count := by decide
  nodup := by decide +kernel
  short := by decide +kernel

def emptyManager : Manager := ⟨fun _ => 0, fun _ => 0, fun _ => 0, fun _ => 0⟩

theorem boxes_not_listed_tableB :
    ¬ tableB.Listed (emptyManager.list (tableB.boxListBoxes fun _ => 0).2).lines :=
  boxes_not_listed tableB_listable.count.1 _ _

/-- The manager exits before it prints `/b`. -/
theorem listing_exits : ¬ ∀ (s : Server) stack (m : Manager), s.Listable →
    s.Listed (m.list (s.boxListBoxes stack).2).lines := by
  intro h
  have hlisted := h tableB (fun _ => 0) emptyManager tableB_listable
  obtain ⟨hnone, -⟩ := list_of_head emptyManager (boxListBoxes_head tableB fun _ => 0)
  rw [hnone, Listed, if_neg (by decide)] at hlisted
  have hlength := hlisted.1.length_eq
  rw [length_names] at hlength
  revert hlength
  decide

end MBroker.Broker
