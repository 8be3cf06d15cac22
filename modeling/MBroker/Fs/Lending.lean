import MBroker.Lib.Lending
import MBroker.Fs.Linear
import MBroker.Fs.Names

/- The handles of TecnicoFS are lent and given back: `tfs_open` never returns a handle that
   is open, and `tfs_close` gives back none that is not. Since the calls of threads are calls
   one after the other, in every interleaving a handle is one thread's until it is closed
   (`handles_lent_once`). -/
namespace MBroker.Fs
open MBroker.Lib Function

/-- What a call does with a handle: lend it or take it back. -/
def Op.loan (op : Op) (r : Ret) : Option (Loan Nat) :=
  match op with
  | .open _ _ => if 0 ≤ r.value then some (.lend r.value.toNat) else none
  | .close fhandle =>
    if r.value = 0 ∧ 0 ≤ fhandle then some (.giveBack fhandle.toNat) else none
  | .read _ _ | .write _ _ _ | .unlink _ => none

variable {s t : FsState} {op : Op} {r : Ret}

/-- A call that lends a handle lends one that is not out, and so on: the handles that are
taken are those that are out. -/
structure Lends (s : FsState) (loan : Option (Loan Nat)) (t : FsState) : Prop where
  sound : Loan.Sound (takenHandles s) loan.toList
  taken : takenHandles t = loan.toList.foldl Loan.out (takenHandles s)

theorem Lends.none (hp : t.fsParams = s.fsParams)
    (he : t.freeOpenFileEntries = s.freeOpenFileEntries) : Lends s none t :=
  ⟨trivial, takenHandles_congr hp he⟩

/-- The end of `tfs_open`, whatever was done to the files before it. -/
theorem Lends.addToOpenFileTable {u : FsState} {name : Option CString} {mode : BitVec 32}
    (n offset : Nat) (hp : u.fsParams = s.fsParams)
    (he : u.freeOpenFileEntries = s.freeOpenFileEntries) :
    Lends s (Op.loan (.open name mode) ⟨(addToOpenFileTable u n offset).1, []⟩)
      (addToOpenFileTable u n offset).2 := by
  have htaken : takenHandles u = takenHandles s := takenHandles_congr hp he
  cases hh : freeHandle u with
  | none =>
    rw [addToOpenFileTable_of_none hh]
    exact .none hp he
  | some h =>
    rw [addToOpenFileTable_of_some hh]
    have hloan : Op.loan (.open name mode) ⟨h, []⟩ = some (.lend h) := by
      simp [Op.loan]
    rw [hloan]
    refine ⟨⟨?_, trivial⟩, ?_⟩
    · show h ∉ takenHandles s
      rw [← htaken]
      exact freeHandle_notMem hh
    · have hinsert : takenHandles (u.openHandle h n offset) = insert h (takenHandles u) :=
        takenHandles_insert rfl hh rfl
      rw [hinsert, htaken]
      rfl

theorem takenHandles_closeHandle (s : FsState) (h : Nat) :
    takenHandles (s.closeHandle h) = (takenHandles s).erase h := by
  ext g
  rw [Finset.mem_erase, mem_takenHandles, mem_takenHandles]
  unfold TakenHandle
  rw [FsState.closeHandle_fsParams, FsState.closeHandle_freeOpenFileEntries]
  by_cases hg : g = h
  · subst hg
    simp
  · simp [hg]

theorem Effect.lends (he : Effect s op r t) : Lends s (op.loan r) t := by
  cases he with
  | openFound => exact .addToOpenFileTable _ _ (cut_fsParams ..) (cut_freeOpenFileEntries ..)
  | openCreated => exact .addToOpenFileTable _ _ rfl rfl
  | @closeDone h ht =>
    have hloan : Op.loan (.close h) ⟨0, []⟩ = some (.giveBack h) := by
      simp [Op.loan]
    rw [hloan]
    exact ⟨⟨mem_takenHandles.mpr ht, trivial⟩, takenHandles_closeHandle s h⟩
  | _ => exact .none rfl rfl

theorem takenHandles_initial {params : TfsParams} (h : Initial params s) : takenHandles s = ∅ := by
  obtain ⟨-, -, mem, rfl⟩ := h.formatted
  ext g
  rw [mem_takenHandles]
  simp [not_takenHandle_formatted]

namespace Threads
open Critical

variable {T : Type} {params : TfsParams} {s₀ : FsState}

/-- What the calls did with handles, of those that were answered. -/
def loans (ys : List (T × Op × Ret)) : List (Loan Nat) :=
  ys.filterMap fun y => y.2.1.loan y.2.2

theorem lends_all (hI : Inv s) {ys : List (T × Op × Ret)}
    (he : execAll step s (ys.map fun y => y.2.1) = .ok (ys.map fun y => y.2.2, t)) :
    Loan.Sound (takenHandles s) (loans ys) ∧
      takenHandles t = (loans ys).foldl Loan.out (takenHandles s) := by
  induction ys generalizing s with
  | nil =>
    cases he
    exact ⟨trivial, rfl⟩
  | cons y ys ih =>
    obtain ⟨r, u, rs, hstep, hrest, heq⟩ := execAll_cons he
    obtain ⟨rfl, rfl⟩ := List.cons.inj heq
    obtain ⟨hsound, htaken⟩ := (step_effect hI hstep).lends
    obtain ⟨hsound', htaken'⟩ := ih (hI.step ⟨_, hstep⟩) hrest
    have hloans : loans (y :: ys) = (y.2.1.loan y.2.2).toList ++ loans ys := by
      unfold loans
      rw [List.filterMap_cons]
      cases y.2.1.loan y.2.2 with
      | none => rfl
      | some l => rfl
    rw [hloans, Loan.sound_append, List.foldl_append, ← htaken]
    exact ⟨⟨hsound, hsound'⟩, htaken'⟩

theorem loans_append (xs ys : List (T × Op × Ret)) : loans (xs ++ ys) = loans xs ++ loans ys :=
  List.filterMap_append ..

theorem loans_open {t : T} {path : Option CString} {mode : BitVec 32} {r : Ret}
    (hr : 0 ≤ r.value) (ys : List (T × Op × Ret)) :
    loans ((t, .open path mode, r) :: ys) = .lend r.value.toNat :: loans ys := by
  have hloan : Op.loan (.open path mode) r = some (.lend r.value.toNat) := if_pos hr
  unfold loans
  rw [List.filterMap_cons]
  simp only [hloan]

theorem loan_of_giveBack {op : Op} {r : Ret} {h : Nat} (hl : op.loan r = some (.giveBack h)) :
    op = .close h ∧ r.value = 0 := by
  unfold Op.loan at hl
  split at hl
  · split at hl <;> cases hl
  · split at hl
    · next hclose =>
      cases hl
      obtain ⟨hr, hh⟩ := hclose
      exact ⟨by rw [Int.toNat_of_nonneg hh], hr⟩
    · cases hl
  all_goals cases hl

variable [Fintype T] [DecidableEq T]

/-- Whatever the turns of the threads are, a handle that was lent is not lent again before it
is given back; and while no call is inside, those that are open are all that were lent less all
that were given back. -/
theorem handles_lent_once (hp : params.Sane) (h₀ : Initial params s₀)
    {ρ : List (Turn T library.Point × System T)}
    (hr : Run (Turns library.program) (library.start s₀) ρ) :
    (∀ before between after t u path path' mode mode' r r',
      answers ρ = before ++ (t, .open path mode, r) ::
        (between ++ (u, .open path' mode', r') :: after) →
      0 ≤ r.value → r'.value = r.value →
        ∃ v r'', (v, .close r.value, r'') ∈ between ∧ r''.value = 0) ∧
    ((lastState (library.start s₀) ρ).owner .gLibraryMutex = none →
      (takenHandles (lastState (library.start s₀) ρ).memory).card +
          (loans (answers ρ)).countP Loan.isGiveBack =
        (loans (answers ρ)).countP Loan.isLend) := by
  obtain ⟨s, hs, -, hfree, -⟩ := linearizable h₀ hr
  obtain ⟨hsound, htaken⟩ := lends_all (Inv.initial hp h₀) hs
  refine ⟨?_, fun hno => ?_⟩
  · intro before between after t u path path' mode mode' r r' hans hpos heq
    rw [hans, loans_append, loans_open hpos, loans_append, loans_open (heq ▸ hpos), heq] at hsound
    obtain ⟨y, hy, hback⟩ := List.mem_filterMap.mp (Loan.giveBack_between hsound)
    obtain ⟨hop, hzero⟩ := loan_of_giveBack hback
    rw [Int.toNat_of_nonneg hpos] at hop
    obtain ⟨v, op, r''⟩ := y
    cases hop
    exact ⟨v, r'', hy, hzero⟩
  · have hcard := Loan.card_out hsound
    rw [← htaken, takenHandles_initial h₀, Finset.card_empty, Nat.zero_add] at hcard
    rw [hfree hno]
    exact hcard

/-- One thread makes `/a` and closes it, and another opens it. -/
def passOn : List (Turn Bool library.Point × System Bool) :=
  runTurns library.program (library.start small)
    ([.call false (.entering (.open (some pathA) tfsOCreat))] ++
      List.replicate 7 (.run false fun _ => false) ++ [.call false (.entering (.close 0))] ++
      List.replicate 4 (.run false fun _ => false) ++
      [.call true (.entering (.open (some pathA) 0))] ++ List.replicate 6 (.run true fun _ => false))

theorem handles_lent_once_passOn :
    (∀ before between after t u path path' mode mode' r r',
      answers passOn = before ++ (t, .open path mode, r) ::
        (between ++ (u, .open path' mode', r') :: after) →
      0 ≤ r.value → r'.value = r.value →
        ∃ v r'', (v, .close r.value, r'') ∈ between ∧ r''.value = 0) ∧
    ((lastState (library.start small) passOn).owner .gLibraryMutex = none →
      (takenHandles (lastState (library.start small) passOn).memory).card +
          (loans (answers passOn)).countP Loan.isGiveBack =
        (loans (answers passOn)).countP Loan.isLend) :=
  handles_lent_once smallParams_sane initial_small (run_runTurns ..)

example : (answers passOn).map (fun y => (y.1, y.2.2.value)) = [(false, 0), (false, 0), (true, 0)] := by
  decide +kernel

end Threads

end MBroker.Fs
