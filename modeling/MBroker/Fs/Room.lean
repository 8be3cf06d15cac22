import MBroker.Fs.Files
import MBroker.Fs.Leaks

/- When a loop over a table finds nothing: the inodes are out when there is a file
   for each but the root's, the entries when there is a file for each, the blocks
   when all but the root's hold a file's data. -/
namespace MBroker.Fs
open MBroker.Lib Function

/-- The inodes of the files. -/
def fileInodes (s : FsState) : Finset Nat :=
  (Finset.range s.fsParams.maxInodeCount).filter fun n => n ≠ 0 ∧ s.freeinodeTs n = .taken

def liveSlots (s : FsState) : Finset Nat :=
  (Finset.range s.maxDirEntries).filter fun i => slotInum s i ≠ -1

variable {s : FsState}

theorem mem_fileInodes {n : Nat} : n ∈ fileInodes s ↔ n ≠ 0 ∧ TakenInode s n := by
  simp only [fileInodes, TakenInode, Finset.mem_filter, Finset.mem_range]
  exact and_left_comm

theorem mem_liveSlots {i : Nat} : i ∈ liveSlots s ↔ Live s i := by
  simp [liveSlots, Live]

theorem nonEmptyFiles_subset : nonEmptyFiles s ⊆ fileInodes s := by
  intro n hn
  obtain ⟨h0, ht, -⟩ := mem_nonEmptyFiles.mp hn
  exact mem_fileInodes.mpr ⟨h0, ht⟩

/-- The directory has an entry for each file and no other. -/
theorem Inv.card_liveSlots (hI : Inv s) : (liveSlots s).card = (fileInodes s).card := by
  refine Finset.card_bij (fun i _ => (slotInum s i).toNat) ?_ ?_ ?_
  · intro i hi
    obtain ⟨n, hin, hn0, hn, -⟩ := hI.dir.file i (mem_liveSlots.mp hi)
    rw [hin, Int.toNat_natCast]
    exact mem_fileInodes.mpr ⟨by omega, hn⟩
  · intro i hi j hj hij
    obtain ⟨n, hin, -⟩ := hI.dir.file i (mem_liveSlots.mp hi)
    obtain ⟨m, hjm, -⟩ := hI.dir.file j (mem_liveSlots.mp hj)
    apply hI.dir.inumInj i j (mem_liveSlots.mp hi) (mem_liveSlots.mp hj)
    rw [hin, hjm, Int.toNat_natCast, Int.toNat_natCast] at hij
    rw [hin, hjm, hij]
  · intro n hn
    obtain ⟨hn0, ht⟩ := mem_fileInodes.mp hn
    obtain ⟨i, hi, hin⟩ := hI.dir.named n (Nat.pos_of_ne_zero hn0) ht
    exact ⟨i, mem_liveSlots.mpr hi, by rw [hin, Int.toNat_natCast]⟩

theorem Inv.freeInode_eq_none (hI : Inv s) :
    freeInode s = none ↔ s.fsParams.maxInodeCount ≤ (fileInodes s).card + 1 := by
  have hroot : 0 ∉ fileInodes s := fun h => (mem_fileInodes.mp h).1 rfl
  have htaken : (Finset.range s.fsParams.maxInodeCount).filter
      (fun n => decide (s.freeinodeTs n = .free) = false) = insert 0 (fileInodes s) := by
    ext n
    rw [Finset.mem_filter, Finset.mem_insert, mem_fileInodes, Finset.mem_range,
      decide_eq_false_iff_not]
    refine ⟨?_, ?_⟩
    · intro ⟨hlt, hf⟩
      by_cases hn : n = 0
      · exact .inl hn
      · refine .inr ⟨hn, hlt, ?_⟩
        cases ha : s.freeinodeTs n
        · exact absurd ha hf
        · rfl
    · rintro (rfl | ⟨-, hlt, ht⟩)
      · exact ⟨hI.base.inodeCount, by simp [hI.base.rootTaken]⟩
      · exact ⟨hlt, by simp [ht]⟩
  rw [freeInode, firstIndex_eq_none_iff_card, htaken, Finset.card_insert_of_notMem hroot]

theorem Inv.emptySlot_eq_none (hI : Inv s) :
    emptySlot s = none ↔ s.maxDirEntries ≤ (fileInodes s).card := by
  have hlive : (Finset.range s.maxDirEntries).filter
      (fun i => decide (slotInum s i = -1) = false) = liveSlots s := by
    ext i
    simp [liveSlots]
  rw [emptySlot, firstIndex_eq_none_iff_card, hlive, hI.card_liveSlots]

theorem Owned.freeBlock_eq_none (hI : Inv s) (hO : Owned s) :
    freeBlock s = none ↔ s.fsParams.maxBlockCount ≤ (nonEmptyFiles s).card + 1 := by
  have htaken : (Finset.range s.fsParams.maxBlockCount).filter
      (fun b => decide (s.freeBlocks b = .free) = false) = takenBlocks s := by
    ext b
    rw [Finset.mem_filter, takenBlocks, Finset.mem_filter]
    apply and_congr_right
    intro _
    cases s.freeBlocks b <;> simp
  rw [freeBlock, firstIndex_eq_none_iff_card, htaken, hO.card hI, Nat.add_comm]

end MBroker.Fs
