import MBroker.Broker.Outcomes

/- What a handler answers, against what it did. A response is to go out once, before
   any data frame, and to say 0 exactly when the request took effect; so a handler is
   looked at where it ends or where its session's loop begins.

   None of the four ever writes a 0. The publisher's handler answers after its
   session, the subscriber's in the loop that looks for the box, the other two only
   where they refuse; what is left are the refusals that happen to be single. A handler
   that comes to undefined behaviour after its answer has not answered truly. -/
namespace MBroker.Broker
open MBroker.Lib MBroker.Fs MBroker.Wire Function

/-- The session was let in, the box created or the box removed. -/
def TookEffect (s : Server) (op : OpCode) (builder : Addr) (o : Outcome) : Prop :=
  let name := (s.tasks builder).boxName
  match op with
  | .loginPub => ∃ i, o.phase = .publishing builder i
  | .loginSub => ∃ tfsFd buffer, o.phase = .subscribing builder tfsFd buffer
  | .createBox => name ∉ s.names ∧ name ∈ o.server.names
  | .removeBox => name ∈ s.names ∧ o.server.names = s.names.erase name
  | _ => False

/-- One response has been written, to the client of the request; it says 0 exactly when
the request took effect, no publisher is let in next to another, and nothing undefined
has been done. -/
structure Truthful (s : Server) (op : OpCode) (builder : Addr) (o : Outcome) : Prop where
  reply : ∃ r, o.replies = [r] ∧ r.pipePath = (s.tasks builder).pipePath ∧
    (r.value = 0 ↔ TookEffect s op builder o)
  alone : ∀ i, o.phase = .publishing builder i → (o.server.boxes i).numPublishers = 0
  faultless : ∀ f, o.phase ≠ .stopped (.fault f)

/-- The requests that get one answer, which then is a true refusal: a publisher's for a
box there is not; a subscriber's where the table is one box, of another name, or where
the second box is the first of the name, has room for the path of its pipe, and `tfs_open`
refuses; a creation where one box has the name; a removal where there are no boxes. -/
def Answerable (s : Server) (op : OpCode) (builder : Addr) : Prop :=
  let name := (s.tasks builder).boxName
  match op with
  | .loginPub => name ∉ s.names
  | .loginSub => s.size = 1 ∧ name ∉ s.names ∨
      s.firstBox builder = some 1 ∧ s.ListsPipe builder 1 ∧ ¬ Openable s.fs name
  | .createBox => s.names.count name = 1
  | .removeBox => s.currentBoxes = 0
  | _ => False

open Server

variable {s : Server} {op : OpCode} {builder : Addr} {stack : Mem} {o : Outcome}

/-- Without exactly one response there is no true one. -/
theorem Truthful.length (h : Truthful s op builder o) : o.replies.length = 1 := by
  obtain ⟨r, hr, -⟩ := h.reply
  rw [hr]
  rfl

/-- A single refusal of what had no effect. -/
theorem Truthful.of_refused {r : Reply} (hr : o.replies = [r])
    (hpipe : r.pipePath = (s.tasks builder).pipePath) (hv : r.value ≠ 0)
    (he : ¬ TookEffect s op builder o)
    (hp : o.phase = .idle ∨ ∃ status, o.phase = .stopped (.exit status)) :
    Truthful s op builder o := by
  refine ⟨⟨r, hr, hpipe, ⟨fun h => absurd h hv, fun h => absurd h he⟩⟩, ?_, ?_⟩
  · intro i hi
    rcases hp with hidle | ⟨status, hexit⟩
    · exact absurd (hidle.symm.trans hi) (by simp)
    · exact absurd (hexit.symm.trans hi) (by simp)
  · intro f hf
    rcases hp with hidle | ⟨status, hexit⟩
    · exact absurd (hidle.symm.trans hf) (by simp)
    · exact absurd (hexit.symm.trans hf) (by simp)

theorem refusal_returnValue {error : CString} (h : error.bytes.length < maxErrorSize) :
    (refusal stack error).returnValue = -1 := by
  have hat : errorAt + maxErrorSize = returnValueAt := rfl
  unfold refusal Task.returnValue Task.setStr Task.setReturnValue Mem.storeStr
  rw [Mem.loadInt_write_out (.inr (by omega)), Mem.loadInt_storeInt (by decide) (by decide)]

theorem refuse_value {error : CString} (h : error.bytes.length < maxErrorSize) :
    (s.refuse builder stack error).value = -1 := refusal_returnValue h

theorem pub_truthful_iff :
    Truthful s .loginPub builder (s.pubConnectRequest builder) ↔
      (s.tasks builder).boxName ∉ s.names := by
  refine ⟨?_, ?_⟩
  · intro h hmem
    rcases pubConnectRequest_some hmem with ⟨k, hk⟩ | ⟨-, hlen⟩
    · -- let in, with nothing but -1 answered
      obtain ⟨r, hr, -, hv⟩ := h.reply
      have hzero := hv.mpr ⟨k, hk⟩
      have hin : r ∈ (s.pubConnectRequest builder).replies := by
        rw [hr]
        exact List.mem_singleton_self r
      rw [pubLoop_replies s builder s.size 0 r hin] at hzero
      cases hzero
    · rw [h.length] at hlen
      omega
  · intro h
    obtain ⟨hidle, hreplies⟩ := pubConnectRequest_none h
    refine .of_refused hreplies rfl (by simp [answer]) ?_ (.inl hidle)
    intro he
    obtain ⟨i, hi⟩ := he
    rw [hidle] at hi
    cases hi

theorem sub_truthful_iff (hI : Inv s.fs) :
    Truthful s .loginSub builder (s.subConnectRequest builder stack) ↔
      s.size = 1 ∧ (s.tasks builder).boxName ∉ s.names ∨
        s.firstBox builder = some 1 ∧ s.ListsPipe builder 1 ∧
          ¬ Openable s.fs (s.tasks builder).boxName := by
  cases hfirst : s.firstBox builder with
  | none =>
    obtain ⟨-, hidle, hreplies⟩ := subConnectRequest_none stack hfirst
    have hnone : (s.tasks builder).boxName ∉ s.names := firstBox_eq_none.mp hfirst
    refine ⟨?_, ?_⟩
    · intro h
      have hlen := h.length
      rw [hreplies, List.length_replicate] at hlen
      exact .inl ⟨hlen, hnone⟩
    · intro h
      rcases h with ⟨hsize, -⟩ | ⟨h1, -⟩
      · rw [hsize] at hreplies
        refine .of_refused hreplies rfl (by simp [answer]) ?_ (.inl hidle)
        intro he
        obtain ⟨tfsFd, buffer, hphase⟩ := he
        rw [hidle] at hphase
        cases hphase
      · cases h1
  | some j =>
    obtain ⟨-, hphase, hreplies⟩ := subConnectRequest_first stack hfirst
    have hmem : (s.tasks builder).boxName ∈ s.names := by
      by_contra hnot
      rw [firstBox_eq_none.mpr hnot] at hfirst
      cases hfirst
    refine ⟨?_, ?_⟩
    · intro h
      have hlen := h.length
      rw [hreplies, List.length_replicate] at hlen
      subst hlen
      have hfits : s.ListsPipe builder 1 := by
        by_contra hlong
        exact h.faultless _ (hphase.trans (subscribe_overflow stack hlong))
      refine .inr ⟨rfl, hfits, fun hopen => ?_⟩
      -- let in after a 1
      obtain ⟨g, n, hlet, -⟩ := subscribe_ok stack hI ⟨hfits, hopen⟩
      obtain ⟨r, hr, -, hv⟩ := h.reply
      have hzero := hv.mpr ⟨g, stack, hphase.trans hlet⟩
      rw [hreplies] at hr
      cases hr
      cases hzero
    · intro h
      rcases h with ⟨-, hnot⟩ | ⟨h1, hfits, hopen⟩
      · exact absurd hmem hnot
      cases h1
      rw [subscribe_not_openable stack hI hfits hopen] at hphase
      refine .of_refused hreplies rfl (by simp [answer]) ?_ (.inr ⟨1, hphase⟩)
      intro he
      obtain ⟨tfsFd, buffer, hlet⟩ := he
      rw [hphase] at hlet
      cases hlet

/-- A creation ends or exits. -/
theorem boxCreateRequest_ends (stack : Mem) (hI : Inv s.fs) :
    (s.boxCreateRequest builder stack).phase = .idle ∨
      ∃ status, (s.boxCreateRequest builder stack).phase = .stopped (.exit status) := by
  by_cases hc : Creatable s.fs (s.tasks builder).boxName
  · exact .inl (boxCreateRequest_ok stack hI hc).1
  · exact .inr ⟨-1, (boxCreateRequest_error stack hI hc).1⟩

theorem boxRemoveRequest_ends (stack : Mem) (hI : Inv s.fs) :
    (s.boxRemoveRequest builder stack).phase = .idle ∨
      ∃ status, (s.boxRemoveRequest builder stack).phase = .stopped (.exit status) := by
  by_cases hc : Removable s.fs (s.tasks builder).boxName
  · exact .inl (boxRemoveRequest_ok stack hI hc).1
  · exact .inr ⟨1, boxRemoveRequest_error stack hI hc⟩

theorem create_truthful_iff (hI : Inv s.fs) :
    Truthful s .createBox builder (s.boxCreateRequest builder stack) ↔
      s.names.count (s.tasks builder).boxName = 1 := by
  have hreplies := boxCreateRequest_replies s builder stack
  have hlen : (s.boxCreateRequest builder stack).replies.length =
      s.names.count (s.tasks builder).boxName := by
    rw [hreplies, List.length_map, List.count, List.countP_eq_length_filter]
    rfl
  refine ⟨?_, ?_⟩
  · intro h
    rw [← hlen, h.length]
  · intro h
    obtain ⟨r, hr⟩ := List.length_eq_one_iff.mp (hlen.trans h)
    have hmem : r ∈ (s.boxCreateRequest builder stack).replies := by
      rw [hr]
      exact List.mem_singleton_self r
    rw [hreplies] at hmem
    obtain ⟨-, -, rfl⟩ := List.mem_map.mp hmem
    refine .of_refused hr rfl ?_ ?_ (boxCreateRequest_ends stack hI)
    · rw [refuse_value (by decide)]
      decide
    · intro he
      apply he.1
      rw [← List.count_pos_iff]
      omega

theorem remove_truthful_iff (hI : Inv s.fs) :
    Truthful s .removeBox builder (s.boxRemoveRequest builder stack) ↔ s.currentBoxes = 0 := by
  have hreplies := boxRemoveRequest_replies s builder stack
  refine ⟨?_, ?_⟩
  · intro h
    have hlen := h.length
    rw [hreplies] at hlen
    by_contra hne
    rw [if_neg hne] at hlen
    cases hlen
  · intro h
    rw [if_pos h] at hreplies
    refine .of_refused hreplies rfl ?_ ?_ (boxRemoveRequest_ends stack hI)
    · rw [refuse_value (by decide)]
      decide
    · intro he
      have hmem : (s.tasks builder).boxName ∈ s.names := he.1
      have hempty : s.names.length = 0 := by
        rw [length_names, size, h]
        rfl
      rw [List.length_eq_zero_iff.mp hempty] at hmem
      cases hmem

/-- One truthful answer is what exactly the answerable requests get. -/
theorem truthful_iff (hfs : Reachable (Fs.Initial tfsDefaultParams) Fs.Steps s.fs) :
    Truthful s op builder (s.handle op builder stack) ↔ Answerable s op builder := by
  have hI : Inv s.fs := inv_of_reachable tfsDefaultParams_sane hfs
  cases op with
  | loginPub => exact pub_truthful_iff
  | loginSub => exact sub_truthful_iff hI
  | createBox => exact create_truthful_iff hI
  | removeBox => exact remove_truthful_iff hI
  | _ => exact ⟨fun h => absurd h.length (by simp [handle]), False.elim⟩

/-- The creation of `/b` in the broker that has just started. -/
def firstCreation : Server := started.receive 0 (requestFor .createBox pathB)

theorem truthful_iff_firstCreation :
    Truthful firstCreation .createBox 0 (firstCreation.handle .createBox 0 fun _ => 0) ↔
      Answerable firstCreation .createBox 0 :=
  truthful_iff reachable_volume

/-- It gets no answer. -/
theorem creation_not_answered : ¬ ∀ (s : Server) op builder stack,
    Reachable (Fs.Initial tfsDefaultParams) Fs.Steps s.fs →
      op ∈ [OpCode.loginPub, .loginSub, .createBox, .removeBox] →
        Truthful s op builder (s.handle op builder stack) := by
  intro h
  have hlen := (h firstCreation .createBox 0 (fun _ => 0) reachable_volume (by decide)).length
  rw [handle, boxCreateRequest_replies] at hlen
  cases hlen

end MBroker.Broker
