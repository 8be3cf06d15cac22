import Mathlib.Data.List.Chain
import MBroker.Lib.Memory

/- Chunks read one after the other to the start of a buffer that is not cleared in
   between. `overlay` is what one read leaves, `texts` what stands in the buffer
   after each; what stands there is the chunk itself exactly when no chunk before
   it was longer (`texts_eq_iff`). -/
namespace MBroker.Lib

variable {α : Type}

/-- What `old` becomes when `new` is written over its start. -/
def overlay (old new : List α) : List α := new ++ old.drop new.length

/-- The texts after each chunk. -/
def texts (old : List α) : List (List α) → List (List α)
  | [] => []
  | chunk :: chunks => overlay old chunk :: texts (overlay old chunk) chunks

variable {old new : List α} {chunks more : List (List α)}

theorem mem_overlay {x : α} (h : x ∈ overlay old new) : x ∈ new ∨ x ∈ old := by
  rcases List.mem_append.mp h with hnew | hold
  · exact .inl hnew
  · exact .inr (List.mem_of_mem_drop hold)

theorem length_overlay (old new : List α) :
    (overlay old new).length = max new.length old.length := by
  rw [overlay, List.length_append, List.length_drop]
  omega

theorem overlay_eq_iff : overlay old new = new ↔ old.length ≤ new.length := by
  rw [overlay, List.append_right_eq_self, List.drop_eq_nil_iff]

theorem texts_append (old : List α) (chunks more : List (List α)) :
    texts old (chunks ++ more) = texts old chunks ++ texts (chunks.foldl overlay old) more := by
  induction chunks generalizing old with
  | nil => rfl
  | cons chunk chunks ih =>
    rw [List.cons_append, texts, texts, List.foldl_cons, ih, List.cons_append]

theorem length_texts (old : List α) (chunks : List (List α)) :
    (texts old chunks).length = chunks.length := by
  induction chunks generalizing old with
  | nil => rfl
  | cons chunk chunks ih => rw [texts, List.length_cons, List.length_cons, ih]

/-- Texts that are the chunks are so from the first on. -/
theorem texts_of_append (h : texts old (chunks ++ more) = chunks ++ more) :
    texts old chunks = chunks := by
  rw [texts_append] at h
  exact (List.append_inj h (length_texts old chunks)).1

/-- The texts are the chunks when no chunk is shorter than what was there before. -/
theorem texts_eq_iff : texts old chunks = chunks ↔
    (old :: chunks).IsChain (fun a b => a.length ≤ b.length) := by
  induction chunks generalizing old with
  | nil => simp [texts]
  | cons chunk chunks ih =>
    rw [texts, List.isChain_cons_cons, List.cons_eq_cons, overlay_eq_iff]
    refine and_congr_right fun hle => ?_
    rw [overlay_eq_iff.mpr hle]
    exact ih

/-- Then the last of them is what the buffer holds in the end. -/
theorem foldl_overlay_of_chain (h : (old :: chunks).IsChain (fun a b => a.length ≤ b.length)) :
    chunks.foldl overlay old = (old :: chunks).getLast (List.cons_ne_nil _ _) := by
  induction chunks generalizing old with
  | nil => rfl
  | cons chunk chunks ih =>
    obtain ⟨hle, hrest⟩ := List.isChain_cons_cons.mp h
    rw [List.foldl_cons, overlay_eq_iff.mpr hle, ih hrest, List.getLast_cons_cons]

theorem length_le_foldl_overlay (old : List α) (chunks : List (List α)) :
    ∀ text ∈ old :: chunks, text.length ≤ (chunks.foldl overlay old).length := by
  induction chunks generalizing old with
  | nil => simp
  | cons chunk chunks ih =>
    have hrest := ih (overlay old chunk)
    have hfirst := hrest _ List.mem_cons_self
    rw [length_overlay] at hfirst
    rw [List.foldl_cons]
    intro text htext
    rcases List.mem_cons.mp htext with rfl | htext
    · omega
    rcases List.mem_cons.mp htext with rfl | htext
    · omega
    · exact hrest text (List.mem_cons_of_mem _ htext)

theorem chain_of_length {n : Nat} (hold : old.length ≤ n) (h : ∀ c ∈ chunks, c.length = n) :
    (old :: chunks).IsChain (fun a b => a.length ≤ b.length) := by
  induction chunks generalizing old with
  | nil => exact .singleton old
  | cons chunk chunks ih =>
    obtain ⟨hchunk, hrest⟩ := List.forall_mem_cons.mp h
    exact .cons_cons (hold.trans_eq hchunk.symm) (ih hchunk.le hrest)

/-- For chunks none of which is empty, the texts are the chunks and end in one element
exactly when each chunk is one. -/
theorem texts_single_iff {x : α} (hne : ∀ chunk ∈ chunks, chunk ≠ []) :
    texts [] chunks = chunks ∧ chunks.foldl overlay [] = [x] ↔
      (∀ chunk ∈ chunks, chunk.length = 1) ∧ chunks.getLast? = some [x] := by
  have hlast : ∀ (h : ([] :: chunks).IsChain (fun a b => a.length ≤ b.length)),
      chunks.foldl overlay [] = [x] ↔ chunks.getLast? = some [x] := by
    intro h
    rw [foldl_overlay_of_chain h]
    cases chunks with
    | nil => simp
    | cons chunk rest =>
      rw [List.getLast_cons_cons, List.getLast?_eq_some_getLast, Option.some.injEq]
  refine ⟨?_, ?_⟩
  · intro h
    obtain ⟨htexts, hfold⟩ := h
    refine ⟨?_, (hlast (texts_eq_iff.mp htexts)).mp hfold⟩
    -- no chunk is longer than what the buffer holds in the end
    intro chunk hmem
    have hle := length_le_foldl_overlay [] chunks chunk (List.mem_cons_of_mem _ hmem)
    rw [hfold] at hle
    exact Nat.le_antisymm hle (List.length_pos_of_ne_nil (hne chunk hmem))
  · intro h
    obtain ⟨hone, hget⟩ := h
    have hchain : ([] :: chunks).IsChain (fun a b => a.length ≤ b.length) :=
      chain_of_length (Nat.zero_le 1) hone
    exact ⟨texts_eq_iff.mpr hchain, (hlast hchain).mpr hget⟩

/-- A chunk written into memory that holds a text and NULs. -/
theorem Mem.write_overlay {m : Mem} {old new : List UInt8} {n : Nat}
    (h : ∀ i, i < n → m i = padded old i) :
    ∀ i, i < n → m.write 0 new.length (padded new) i = padded (overlay old new) i := by
  intro i hi
  unfold padded overlay
  rw [List.getD_eq_getElem?_getD, List.getElem?_append]
  by_cases hin : i < new.length
  · have hwrite := write_in (m := m) (a := 0) (f := padded new) hin
    rw [Nat.zero_add] at hwrite
    rw [if_pos hin]
    exact hwrite
  · rw [if_neg hin, write_out (by omega), h i hi, List.getElem?_drop,
      Nat.add_sub_cancel' (Nat.le_of_not_lt hin)]
    rfl

end MBroker.Lib
