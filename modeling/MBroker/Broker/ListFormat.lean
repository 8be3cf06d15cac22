import MBroker.Broker.Board
import MBroker.Broker.Ledger
import MBroker.Broker.Listing
import MBroker.Lib.Records

/- What `box_list_boxes` writes, read back. The response gives each box by its name and
   three counters, with nothing between a name and the first counter. That counter is the
   size of a box, which is 1024 for every box there is, so its first byte is a NUL and the
   response can be read: at every point of every run it holds the boxes of the table, in
   the order of their names (`listing_readable`). -/
namespace MBroker.Broker
open MBroker.Lib MBroker.Fs MBroker.Wire Function

open Server

/-- A box as it is listed. -/
structure BoxEntry where
  name : List UInt8
  boxSize : UInt64
  numPublishers : UInt64
  numSubscribers : UInt64

namespace BoxEntry

def encode (e : BoxEntry) : List UInt8 :=
  e.name ++ (leBytes 8 e.boxSize.toNat ++ (leBytes 8 e.numPublishers.toNat ++
    leBytes 8 e.numSubscribers.toNat))

/-- The first counter, and what is behind it. -/
def takeCounter (bytes : List UInt8) : UInt64 × List UInt8 :=
  (.ofNat (ofLe (bytes.take 8)), bytes.drop 8)

/-- The first entry, and what is behind it. -/
def decode (bytes : List UInt8) : BoxEntry × List UInt8 :=
  let (name, rest) := takeName bytes
  let (boxSize, rest) := takeCounter rest
  let (numPublishers, rest) := takeCounter rest
  let (numSubscribers, rest) := takeCounter rest
  (⟨name, boxSize, numPublishers, numSubscribers⟩, rest)

def decodeAll : Nat → List UInt8 → List BoxEntry
  | 0, _ => []
  | n + 1, bytes =>
    let (e, rest) := decode bytes
    e :: decodeAll n rest

end BoxEntry

/-- The entries of a response: behind the code and the count. -/
def readListing : List UInt8 → List BoxEntry
  | _ :: count :: bytes => BoxEntry.decodeAll count.toNat bytes
  | _ => []

/-- A box of the table, with these tasks in memory. -/
def entryOf (tasks : Addr → Task) (box : MailBox) : BoxEntry :=
  ⟨(nameOf tasks box).bytes, box.boxSize, box.numPublishers, box.numSubscribers⟩

namespace BoxEntry

variable {e : BoxEntry} {rest : List UInt8}

theorem takeCounter_append (v : UInt64) (rest : List UInt8) :
    takeCounter (leBytes 8 v.toNat ++ rest) = (v, rest) := by
  have hlen : (leBytes 8 v.toNat).length = 8 := length_leBytes ..
  have hlt : v.toNat < 256 ^ 8 := v.toNat_lt
  unfold takeCounter
  rw [List.take_left' hlen, List.drop_left' hlen, ofLe_leBytes, Nat.mod_eq_of_lt hlt,
    UInt64.ofNat_toNat]

theorem length_encode (e : BoxEntry) : e.encode.length = e.name.length + 24 := by
  simp only [encode, List.length_append, length_leBytes]

theorem decode_encode (hname : 0 ∉ e.name) (hsize : e.boxSize.toNat % 256 = 0) :
    decode (e.encode ++ rest) = (e, rest) := by
  have htake : takeName (e.encode ++ rest) = (e.name, leBytes 8 e.boxSize.toNat ++
      (leBytes 8 e.numPublishers.toNat ++ (leBytes 8 e.numSubscribers.toNat ++ rest))) := by
    simp only [encode, List.append_assoc]
    exact takeName_append hname hsize
  unfold decode
  simp only [htake, takeCounter_append]

theorem decodeAll_encode {es : List BoxEntry}
    (h : ∀ e ∈ es, 0 ∉ e.name ∧ e.boxSize.toNat % 256 = 0) :
    decodeAll es.length (es.flatMap encode ++ rest) = es := by
  induction es with
  | nil => rfl
  | cons e es ih =>
    obtain ⟨hname, hsize⟩ := h e List.mem_cons_self
    rw [List.length_cons, List.flatMap_cons, List.append_assoc, decodeAll,
      decode_encode hname hsize]
    exact congrArg _ (ih fun e he => h e (List.mem_cons_of_mem _ he))

end BoxEntry

/-! ## What is stored -/

theorem read_storeCounter (m : Mem) (a : Nat) (v : UInt64) :
    (storeCounter m a v).read a 8 = leBytes 8 v.toNat :=
  leBytes_eq_read 8 v.toNat a fun _ hk => Mem.write_in hk

theorem read_storeCounter_out {m : Mem} {a b n : Nat} {v : UInt64} (h : b + n ≤ a ∨ a + 8 ≤ b) :
    (storeCounter m a v).read b n = m.read b n := Mem.read_write_out h

theorem storeBox_below {tasks : Addr → Task} {m : Mem} {offset : Nat} {box : MailBox} {x : Nat}
    (hx : x < offset) : (storeBox tasks m offset box).1 x = m x := by
  unfold storeBox storeCounter
  dsimp only
  rw [Mem.write_out (by omega), Mem.write_out (by omega), Mem.write_out (by omega),
    Mem.write_out (by omega)]

theorem storeBox_offset (tasks : Addr → Task) (m : Mem) (offset : Nat) (box : MailBox) :
    (storeBox tasks m offset box).2 = offset + (entryOf tasks box).encode.length := by
  rw [BoxEntry.length_encode]
  exact Nat.add_assoc ..

theorem storeBox_read (tasks : Addr → Task) (m : Mem) (offset : Nat) (box : MailBox) :
    (storeBox tasks m offset box).1.read offset (entryOf tasks box).encode.length =
      (entryOf tasks box).encode := by
  have hlen : (entryOf tasks box).encode.length =
      (nameOf tasks box).bytes.length + (8 + (8 + 8)) := BoxEntry.length_encode _
  have hname : (m.write offset (nameOf tasks box).bytes.length
      (Mem.padded (nameOf tasks box).bytes)).read offset (nameOf tasks box).bytes.length =
        (nameOf tasks box).bytes := by
    have hpad := Mem.read_padded (nameOf tasks box).bytes _ (Nat.le_refl _)
    rw [List.take_length] at hpad
    refine Eq.trans (Mem.read_eq_iff.mpr fun i hi => ?_) hpad
    rw [Mem.write_in hi, Nat.zero_add]
  rw [hlen, Mem.read_add, Mem.read_add, Mem.read_add]
  unfold storeBox
  dsimp only
  rw [read_storeCounter_out (by omega), read_storeCounter_out (by omega),
    read_storeCounter_out (by omega), hname, read_storeCounter_out (by omega),
    read_storeCounter_out (by omega), read_storeCounter, read_storeCounter_out (by omega),
    read_storeCounter, read_storeCounter]
  rfl

section Boxes

variable {tasks : Addr → Task} {m : Mem} {offset : Nat} {boxes : List MailBox}

def listed (tasks : Addr → Task) (boxes : List MailBox) : List UInt8 :=
  (boxes.map (entryOf tasks)).flatMap BoxEntry.encode

theorem storeBoxes_cons (tasks : Addr → Task) (m : Mem) (offset : Nat) (box : MailBox)
    (boxes : List MailBox) :
    storeBoxes tasks m offset (box :: boxes) =
      storeBoxes tasks (storeBox tasks m offset box).1 (storeBox tasks m offset box).2 boxes :=
  rfl

theorem storeBoxes_below {x : Nat} (hx : x < offset) :
    storeBoxes tasks m offset boxes x = m x := by
  induction boxes generalizing m offset with
  | nil => rfl
  | cons box boxes ih =>
    have hoffset := storeBox_offset tasks m offset box
    rw [storeBoxes_cons, ih (by omega), storeBox_below hx]

theorem storeBoxes_read (tasks : Addr → Task) (m : Mem) (offset : Nat) (boxes : List MailBox) :
    (storeBoxes tasks m offset boxes).read offset (listed tasks boxes).length =
      listed tasks boxes := by
  induction boxes generalizing m offset with
  | nil => rfl
  | cons box boxes ih =>
    have hlisted : listed tasks (box :: boxes) =
        (entryOf tasks box).encode ++ listed tasks boxes := rfl
    have hoffset := storeBox_offset tasks m offset box
    rw [hlisted, List.length_append, Mem.read_add, storeBoxes_cons]
    congr 1
    · -- the boxes behind it are stored behind it
      rw [Mem.read_congr fun i hi => storeBoxes_below (by omega)]
      exact storeBox_read tasks m offset box
    · rw [hoffset]
      exact ih _ _

/-- Names that fit their field leave room for all. -/
theorem length_listed_le (h : ∀ box ∈ boxes, (nameOf tasks box).bytes.length ≤ maxBoxName) :
    (listed tasks boxes).length ≤ boxes.length * (maxBoxName + 24) := by
  induction boxes with
  | nil => exact Nat.zero_le _
  | cons box boxes ih =>
    have hrest := ih fun box hbox => h box (List.mem_cons_of_mem _ hbox)
    have hlen : (entryOf tasks box).encode.length = (nameOf tasks box).bytes.length + 24 :=
      BoxEntry.length_encode _
    have hname := h box List.mem_cons_self
    show ((entryOf tasks box).encode ++ listed tasks boxes).length ≤ _
    rw [List.length_append, hlen, List.length_cons, Nat.succ_mul]
    omega

/-- Two bytes, the boxes and what is left of the room for them. -/
theorem storeBoxes_response (m : Mem)
    (h : ∀ box ∈ boxes, (nameOf tasks box).bytes.length ≤ maxBoxName) :
    ∃ tail, (storeBoxes tasks m 2 boxes).read 0 (listResponseSize boxes.length) =
      m 0 :: m 1 :: (listed tasks boxes ++ tail) := by
  obtain ⟨k, hk⟩ := Nat.exists_eq_add_of_le (length_listed_le h)
  have hsize : listResponseSize boxes.length = (listed tasks boxes).length + k + 1 + 1 := by
    unfold listResponseSize
    omega
  refine ⟨(storeBoxes tasks m 2 boxes).read (2 + (listed tasks boxes).length) k, ?_⟩
  rw [hsize, Mem.read, Mem.read, Mem.read_add, storeBoxes_read, storeBoxes_below (by omega),
    storeBoxes_below (by omega)]

end Boxes

/-! ## The order -/

section Order

variable {u v w : List UInt8}

theorem strcmp_total (u v : List UInt8) : strcmp u v ≤ 0 ∨ strcmp v u ≤ 0 := by
  induction u generalizing v with
  | nil =>
    cases v with
    | nil => exact .inl (Int.le_refl 0)
    | cons d v =>
      refine .inl ?_
      rw [strcmp]
      omega
  | cons c u ih =>
    cases v with
    | nil =>
      refine .inr ?_
      rw [strcmp]
      omega
    | cons d v =>
      rw [strcmp, strcmp]
      by_cases hcd : c = d
      · rw [if_pos hcd, if_pos hcd.symm]
        exact ih v
      · rw [if_neg hcd, if_neg (Ne.symm hcd)]
        omega

theorem strcmp_trans (hu : 0 ∉ u) (huv : strcmp u v ≤ 0) (hvw : strcmp v w ≤ 0) :
    strcmp u w ≤ 0 := by
  induction u generalizing v w with
  | nil =>
    cases w with
    | nil => exact Int.le_refl 0
    | cons e w =>
      rw [strcmp]
      omega
  | cons c u ih =>
    have hc : c.toNat ≠ 0 := by
      intro h0
      exact hu (List.mem_cons.mpr (.inl (UInt8.toNat_inj.mp h0).symm))
    cases v with
    | nil =>
      rw [strcmp] at huv
      omega
    | cons d v =>
      rw [strcmp] at huv
      cases w with
      | nil =>
        rw [strcmp] at hvw
        split at huv
        · next heq =>
          subst heq
          omega
        · omega
      | cons e w =>
        rw [strcmp] at hvw ⊢
        by_cases hcd : c = d
        · subst hcd
          rw [if_pos rfl] at huv
          split
          · next hce =>
            rw [if_pos hce] at hvw
            exact ih (fun h => hu (List.mem_cons_of_mem _ h)) huv hvw
          · next hce => rwa [if_neg hce] at hvw
        · rw [if_neg hcd] at huv
          have hne : c.toNat ≠ d.toNat := fun h => hcd (UInt8.toNat_inj.mp h)
          have hle : d.toNat ≤ e.toNat := by
            split at hvw
            · next hde => rw [hde]
            · omega
          split
          · next hce =>
            subst hce
            omega
          · omega

end Order

variable {s : Server} {stack : Mem}

theorem table_sortBoxes (s : Server) :
    s.sortBoxes.table = s.table.mergeSort fun a b => s.boxListBoxesAux a b ≤ 0 := by
  apply List.ext_getElem?
  intro i
  show (entries s.sortBoxes.boxes s.size)[i]? = _
  rw [getElem?_entries]
  have hlen : (s.table.mergeSort fun a b => s.boxListBoxesAux a b ≤ 0).length = s.size := by
    rw [List.length_mergeSort, table, length_entries]
  split
  · next hi =>
    have hlt := hlen.symm ▸ hi
    rw [List.getElem?_eq_getElem hlt]
    unfold sortBoxes
    dsimp only
    rw [if_pos (Int.natCast_nonneg i), Int.toNat_natCast, List.getD_eq_getElem?_getD,
      List.getElem?_eq_getElem hlt]
    rfl
  · next hi => exact (List.getElem?_eq_none (by omega)).symm

theorem sortBoxes_perm (s : Server) : s.sortBoxes.table.Perm s.table := by
  rw [table_sortBoxes]
  exact List.mergeSort_perm _ _

theorem sortBoxes_pairwise (s : Server) : s.sortBoxes.table.Pairwise fun a b =>
    strcmp (nameOf s.tasks a).bytes (nameOf s.tasks b).bytes ≤ 0 := by
  have htrans : ∀ a b c : MailBox, decide (s.boxListBoxesAux a b ≤ 0) = true →
      decide (s.boxListBoxesAux b c ≤ 0) = true → decide (s.boxListBoxesAux a c ≤ 0) = true := by
    intro a b c hab hbc
    rw [decide_eq_true_iff] at hab hbc ⊢
    exact strcmp_trans (nameOf s.tasks a).noNul hab hbc
  have htotal : ∀ a b : MailBox,
      (decide (s.boxListBoxesAux a b ≤ 0) || decide (s.boxListBoxesAux b a ≤ 0)) = true := by
    intro a b
    rw [Bool.or_eq_true, decide_eq_true_iff, decide_eq_true_iff]
    exact strcmp_total ..
  rw [table_sortBoxes]
  refine (List.pairwise_mergeSort htrans htotal s.table).imp fun h => ?_
  exact of_decide_eq_true h

/-! ## The whole response -/

/-- Every box is given the same size. -/
def Sized (s : Server) : Prop := ∀ i : Nat, i < s.size → (s.boxes i).boxSize = 1024

theorem intByte_count (hB : Bounded s) : (Mem.intByte s.currentBoxes 0).toNat = s.size := by
  have hnonneg := hB.nonneg
  have hle := hB.le
  unfold Mem.intByte size
  rw [Nat.pow_zero, Nat.div_one, UInt8.toNat_ofNat']
  omega

/-- What is read back of the response is the table as it was sorted. -/
theorem readListing_eq (hB : Bounded s) (hsized : Sized s)
    (hshort : ∀ name ∈ s.names, name.bytes.length ≤ maxBoxName) :
    readListing (s.boxListBoxes stack).2 = s.sortBoxes.table.map (entryOf s.tasks) := by
  have hlen : s.sortBoxes.table.length = s.size := by
    rw [(sortBoxes_perm s).length_eq, table, length_entries]
  have hmem : ∀ box ∈ s.sortBoxes.table, box ∈ s.table := (sortBoxes_perm s).subset
  unfold boxListBoxes
  split
  · next h0 =>
    have hnil : s.sortBoxes.table = [] := by
      rw [← List.length_eq_zero_iff, hlen, size, h0]
      rfl
    rw [hnil]
    rfl
  · next h0 =>
    have hfits : ∀ box ∈ s.sortBoxes.table, (nameOf s.tasks box).bytes.length ≤ maxBoxName :=
      fun box hbox => hshort _ (List.mem_map_of_mem (hmem box hbox))
    obtain ⟨tail, htail⟩ := storeBoxes_response ((stack.write 0 1 fun _ =>
      OpCode.listBoxesResponse.code).write 1 1 (Mem.intByte s.currentBoxes)) hfits
    have hgood : ∀ e ∈ s.sortBoxes.table.map (entryOf s.tasks),
        0 ∉ e.name ∧ e.boxSize.toNat % 256 = 0 := by
      intro e he
      obtain ⟨box, hbox, rfl⟩ := List.mem_map.mp he
      obtain ⟨i, hi, rfl⟩ := mem_entries.mp (hmem box hbox)
      refine ⟨(nameOf s.tasks _).noNul, ?_⟩
      show (s.boxes i).boxSize.toNat % 256 = 0
      rw [hsized i hi]
      rfl
    have hback : BoxEntry.decodeAll _ (listed s.tasks s.sortBoxes.table ++ tail) = _ :=
      BoxEntry.decodeAll_encode hgood
    rw [List.length_map, hlen, ← intByte_count hB] at hback
    rw [hlen] at htail
    rw [← hback]
    exact congrArg readListing htail

/-! ## Runs -/

theorem Sized.without (h : Sized s) (builder : Addr) (fs : FsState) :
    Sized (s.without builder fs) := by
  intro i hi
  rw [boxes_without hi]
  rw [size_without] at hi
  exact h _ (movedFrom_lt hi)

namespace Crew

variable {W : Type} [DecidableEq W] {c d : Crew W} {a : CrewStep W}

theorem Effect.sized (hs : Sized c.server) (h : Effect c a d) : Sized d.server := by
  cases h with
  | request | idle | login | publish | deliver => exact hs
  | @subscribe w stack builder queue i h fs =>
    intro k hk
    show (update c.server.boxes i (c.server.joined builder i) k).boxSize = 1024
    by_cases hki : (k : Int) = i
    · rw [hki, update_self]
      exact (congrArg (fun k : Int => (c.server.boxes k).boxSize) hki).symm.trans (hs k hk)
    · rw [update_of_ne hki]
      exact hs k hk
  | create =>
    intro k hk
    rcases addBox_cases hk with ⟨-, hbox⟩ | ⟨-, hlt, last, hbox⟩
    · exact congrArg MailBox.boxSize hbox
    · exact (congrArg MailBox.boxSize hbox).trans (hs k hlt)
  | removeAsked | remove => exact hs.without _ _

/-- In every state of every run, where each name fits its field, what `box_list_boxes` writes
is read back as the boxes of the table, each once, in the order of their names. -/
theorem listing_readable {ρ : List (CrewStep W × Crew W)} (h0 : c.Initial) (hr : Run Steps c ρ)
    (stack : Mem) :
    EveryState (fun c => c.halt = none →
      (∀ name ∈ c.server.names, name.bytes.length ≤ maxBoxName) →
      (readListing (c.server.boxListBoxes stack).2).Perm
          (c.server.table.map (entryOf c.server.tasks)) ∧
        (readListing (c.server.boxListBoxes stack).2).Pairwise
          fun d e => strcmp d.name e.name ≤ 0) c ρ := by
  have hstates : EveryState (fun c => c.halt = none → Bounded c.server ∧ Sized c.server) c ρ := by
    apply Run.invariant _ _ hr
    · intro c a d hc h hd
      obtain ⟨ha, hmove⟩ := h.move
      obtain ⟨hB, hs⟩ := hc ha
      exact ⟨bounded_step h (fun _ => hB) hd, (hmove.effect hB.inv hd).sized hs⟩
    · refine fun _ => ⟨h0.bounded, fun i hi => ?_⟩
      have hzero : c.server.size = 0 := congrArg Int.toNat h0.server.currentBoxes
      omega
  apply hstates.mono
  intro c hc ha hshort
  obtain ⟨hB, hs⟩ := hc ha
  rw [readListing_eq hB hs hshort]
  refine ⟨(sortBoxes_perm c.server).map _, List.pairwise_map.mpr ?_⟩
  exact (sortBoxes_pairwise c.server).imp id

theorem listing_readable_login :
    EveryState (fun c => c.halt = none →
      (∀ name ∈ c.server.names, name.bytes.length ≤ maxBoxName) →
      (readListing (c.server.boxListBoxes fun _ => 0).2).Perm
          (c.server.table.map (entryOf c.server.tasks)) ∧
        (readListing (c.server.boxListBoxes fun _ => 0).2).Pairwise
          fun d e => strcmp d.name e.name ≤ 0) pair login :=
  listing_readable pair_initial (run_along _ _ _) _

end Crew

end MBroker.Broker
