import MBroker.Fs.Startup
import MBroker.Fs.Refines

/- TecnicoFS over the life of the process, from one `tfs_destroy` to the next. Whatever calls
   came before, `tfs_destroy` leaves null pointers, so from there on every `tfs_init` that has
   its memory starts an empty volume, and disciplined clients see that volume until it is
   destroyed (`lives_refine`). -/
namespace MBroker.Fs
open MBroker.Lib Function

/-- The parameters in force, and the volume while there is one. -/
structure Life where
  params : TfsParams
  volume : Option Volume

namespace Life

def step (l : Life) : Call → Ret × Life
  | .init paramsPtr _ =>
    match l.volume with
    | none => (⟨0, []⟩, ⟨paramsPtr.getD tfsDefaultParams, some .empty⟩)
    | some _ => (⟨-1, []⟩, l)
  | .destroy => (⟨0, []⟩, { l with volume := none })
  | .op op =>
    match l.volume with
    | none => (⟨-1, []⟩, l)
    | some v => ((v.step l.params op).1, { l with volume := some (v.step l.params op).2 })

/-- What `tfs_init` can start a volume with. -/
structure Startable (params : TfsParams) (mallocs : Pointers) : Prop where
  sane : params.Sane
  inodes : 0 < params.maxInodeCount
  blocks : 0 < params.maxBlockCount
  memory : mallocs.tables ≠ none

/-- The calls a client keeps to: a second `tfs_init` asks for the parameters in force, and
where there is no volume no call reads a table. -/
def Disciplined (l : Life) : Call → Prop
  | .init paramsPtr mallocs =>
    match l.volume with
    | none => Startable (paramsPtr.getD tfsDefaultParams) mallocs
    | some _ => paramsPtr.getD tfsDefaultParams = l.params
  | .destroy => True
  | .op op =>
    match l.volume with
    | none => refused l.params op = true
    | some v => v.Disciplined l.params op

end Life

/-- There are no tables, or they hold the volume. -/
inductive Holds : Statics → Life → Prop
  | null (params : TfsParams) : Holds ⟨.null, params⟩ ⟨params, none⟩
  | volume {s : FsState} {v : Volume} {params : TfsParams} (h : Refines params s v) :
      Holds (.of s) ⟨params, some v⟩

theorem tfsInit_starts {paramsPtr : Option TfsParams} {mallocs : Pointers} {v : Statics}
    (hv : v.inodeTable = none)
    (h : Life.Startable (paramsPtr.getD tfsDefaultParams) mallocs) :
    ∃ s, v.tfsInit paramsPtr mallocs = .ok (0, .of s) ∧
      Refines (paramsPtr.getD tfsDefaultParams) s .empty := by
  obtain ⟨mem, hm⟩ := Option.ne_none_iff_exists'.mp h.memory
  have hinit : Fs.tfsInit (some (paramsPtr.getD tfsDefaultParams)) mem = .ok (0, _) :=
    tfsInit_eq h.inodes h.blocks
  have hsame : Fs.tfsInit paramsPtr mem = Fs.tfsInit (some (paramsPtr.getD tfsDefaultParams)) mem :=
    rfl
  refine ⟨_, ?_, refines_initial h.sane ⟨mem, hinit⟩⟩
  rw [tfsInit_fresh hv hm, hsame, hinit]
  rfl

theorem holds_step : Simulation Statics.call Life.step Life.Disciplined Holds := by
  intro v l call hH hD
  cases hH with
  | null params =>
    cases call with
    | init paramsPtr mallocs =>
      obtain ⟨s, hs, hR⟩ := tfsInit_starts (v := ⟨.null, params⟩) rfl hD
      refine ⟨.of s, ?_, .volume hR⟩
      simp only [Statics.call, hs]
      rfl
    | destroy => exact ⟨_, rfl, .null params⟩
    | op op =>
      refine ⟨_, ?_, .null params⟩
      have hrefused : refused params op = true := hD
      show (if refused params op then _ else _) = _
      rw [if_pos hrefused]
      rfl
  | @volume s vol params hR =>
    cases call with
    | init paramsPtr mallocs =>
      have hsame : paramsPtr.getD tfsDefaultParams = params := hD
      refine ⟨.of s, ?_, .volume hR⟩
      have hagain : (Statics.of s).tfsInit paramsPtr mallocs = .ok (-1, _) :=
        tfsInit_again (Option.some_ne_none _)
      simp only [Statics.call, hagain, hsame, ← hR.params]
      rfl
    | destroy =>
      refine ⟨_, rfl, ?_⟩
      show Holds ⟨.null, s.fsParams⟩ ⟨params, none⟩
      rw [hR.params]
      exact .null params
    | op op =>
      obtain ⟨t, ht, hR'⟩ := refines_step params s vol op hR hD
      refine ⟨.of t, ?_, .volume hR'⟩
      simp only [Statics.call, Statics.fs_of, ht]
      rfl

/-- Whatever the statics are, from a `tfs_destroy` on the calls of disciplined clients return
what those of fresh volumes return, one volume for each `tfs_init`. -/
theorem lives_refine (v : Statics) {calls : List Call}
    (hD : Allowed Life.step Life.Disciplined ⟨v.fsParams, none⟩ calls) :
    ∃ w, execAll Statics.call v (.destroy :: calls) =
        .ok (⟨0, []⟩ :: (runAll Life.step ⟨v.fsParams, none⟩ calls).1, w) ∧
      Holds w (runAll Life.step ⟨v.fsParams, none⟩ calls).2 := by
  obtain ⟨w, hw, hH⟩ := holds_step.run (.null v.fsParams) hD
  refine ⟨w, ?_, hH⟩
  have hdestroy : v.call .destroy = .ok (⟨0, []⟩, ⟨.null, v.fsParams⟩) := rfl
  simp only [execAll, hdestroy, hw, bind, Except.bind]
  rfl

/-- A volume with the file `/a`, and one after it that has none. -/
def twoLives : List Call :=
  [.init (some smallParams) (.of (tablesOf 0)), .op (.open (some pathA) tfsOCreat),
    .op (.write 0 (fun _ => 7) 5), .destroy, .init none (.of (tablesOf 9)),
    .op (.open (some pathA) 0)]

theorem lives_refine_twoLives :
    ∃ w, execAll Statics.call .start (.destroy :: twoLives) =
        .ok (⟨0, []⟩ :: (runAll Life.step ⟨Statics.start.fsParams, none⟩ twoLives).1, w) ∧
      Holds w (runAll Life.step ⟨Statics.start.fsParams, none⟩ twoLives).2 := by
  refine lives_refine .start ⟨?_, fun ht => absurd ht (by decide), (by decide : 5 < 2 ^ 63),
    trivial, ?_, fun ht => absurd ht (by decide), trivial⟩
  · exact ⟨smallParams_sane, by decide, by decide, nofun⟩
  · exact ⟨tfsDefaultParams_sane, by decide, by decide, nofun⟩

example : (runAll Life.step ⟨Statics.start.fsParams, none⟩ twoLives).1.map Ret.value =
    [0, 0, 5, 0, 0, -1] := by decide

end MBroker.Fs
