import FlowFacts.Worklist
import FlowFacts.Proofs.BitSet

/-! # Worklists hold no node twice -/

namespace FlowFacts.Worklist

/-- The marks are those of the waiting nodes, and no node waits twice. -/
structure InStep (w : Worklist) : Prop where
  marked : ∀ n, w.queued.contains n = true ↔ n ∈ w.toList
  nodup : w.toList.Nodup

theorem inStep_empty : empty.InStep := by
  refine ⟨fun n => ?_, ?_⟩
  · simp [empty, toList]
  · simp [empty, toList]

theorem isEmpty_iff (w : Worklist) : w.isEmpty = true ↔ w.toList = [] :=
  w.queue.isEmpty_iff

/-! ## Pushing -/

theorem toList_push {w : Worklist} (h : w.InStep) (n : Nat) :
    (w.push n).toList = if n ∈ w.toList then w.toList else w.toList ++ [n] := by
  have hflag := BitSet.insert_flag w.queued n
  unfold push
  split
  · rename_i queued heq
    rw [heq] at hflag
    have hn : n ∉ w.toList := by
      rw [← h.marked n]
      simpa using hflag
    rw [if_neg hn]
    exact Queue.toList_push w.queue n
  · rename_i queued heq
    rw [heq] at hflag
    have hn : n ∈ w.toList := by
      rw [← h.marked n]
      simpa using hflag
    rw [if_pos hn]
    rfl

theorem queued_push (w : Worklist) (n : Nat) : (w.push n).queued = (w.queued.insert n).1 := by
  unfold push
  split <;> rename_i heq <;> rw [heq]

theorem mem_push {w : Worklist} (h : w.InStep) (n m : Nat) :
    m ∈ (w.push n).toList ↔ m ∈ w.toList ∨ m = n := by
  rw [toList_push h]
  split
  · rename_i hn
    constructor
    · exact Or.inl
    · rintro (hm | rfl)
      · exact hm
      · exact hn
  · simp

theorem InStep.push {w : Worklist} (h : w.InStep) (n : Nat) : (w.push n).InStep := by
  refine ⟨fun m => ?_, ?_⟩
  · rw [queued_push, BitSet.contains_insert, mem_push h, h.marked, or_comm]
  · rw [toList_push h]
    split
    · exact h.nodup
    · rename_i hn
      refine List.nodup_append.mpr ⟨h.nodup, by simp, ?_⟩
      intro a ha b hb he
      rw [List.mem_singleton] at hb
      exact hn (hb ▸ he ▸ ha)

theorem InStep.pushAll {w : Worklist} (h : w.InStep) (ns : List Nat) : (w.pushAll ns).InStep := by
  induction ns generalizing w with
  | nil => exact h
  | cons n ns ih => exact ih (h.push n)

/-- Nodes that wait keep their places, and the others join at the back. -/
theorem toList_pushAll_eq {w : Worklist} (h : w.InStep) (ns : List Nat) :
    (w.pushAll ns).toList = w.toList ++ (ns.filter fun n => n ∉ w.toList).eraseDups := by
  induction ns generalizing w with
  | nil => exact (List.append_nil _).symm
  | cons n ns ih =>
    have hpush : (w.pushAll (n :: ns)).toList = ((w.push n).pushAll ns).toList := rfl
    rw [hpush, ih (h.push n), toList_push h, List.filter_cons]
    by_cases hn : n ∈ w.toList
    · simp [hn]
    · have hnew : (fun m => decide (m ∉ w.toList ++ [n])) =
          fun m => !(m == n) && decide (m ∉ w.toList) := by
        funext m
        rw [Bool.eq_iff_iff]
        simp [and_comm]
      simp only [hn, if_false, not_false_eq_true, decide_true, if_true, List.eraseDups_cons,
        List.filter_filter, List.append_assoc, List.singleton_append, hnew]

theorem mem_pushAll {w : Worklist} (h : w.InStep) (ns : List Nat) (m : Nat) :
    m ∈ (w.pushAll ns).toList ↔ m ∈ w.toList ∨ m ∈ ns := by
  rw [toList_pushAll_eq h, List.mem_append, List.mem_eraseDups, List.mem_filter]
  by_cases hm : m ∈ w.toList <;> simp [hm]

theorem exists_toList_pushAll {w : Worklist} (h : w.InStep) (ns : List Nat) :
    ∃ later, (w.pushAll ns).toList = w.toList ++ later :=
  ⟨_, toList_pushAll_eq h ns⟩

theorem toList_pushAll {w : Worklist} (h : w.InStep) {ns : List Nat}
    (hnodup : (w.toList ++ ns).Nodup) : (w.pushAll ns).toList = w.toList ++ ns := by
  induction ns generalizing w with
  | nil => exact (List.append_nil _).symm
  | cons n ns ih =>
    have hn : n ∉ w.toList := fun hn =>
      (List.nodup_append.mp hnodup).2.2 n hn n List.mem_cons_self rfl
    have hpush : (w.push n).toList = w.toList ++ [n] := by rw [toList_push h, if_neg hn]
    have hrest := ih (h.push n) (by simpa [hpush] using hnodup)
    rw [hpush, List.append_assoc] at hrest
    exact hrest

theorem toList_pushAll_of_mem {w : Worklist} (h : w.InStep) {ns : List Nat}
    (hns : ∀ n ∈ ns, n ∈ w.toList) : (w.pushAll ns).toList = w.toList := by
  have hnone : ns.filter (fun n => n ∉ w.toList) = [] := by simpa using hns
  rw [toList_pushAll_eq h, hnone]
  exact List.append_nil _

theorem length_push_le {w : Worklist} (h : w.InStep) (n : Nat) :
    (w.push n).toList.length ≤ w.toList.length + 1 := by
  rw [toList_push h]
  split
  · omega
  · simp

theorem length_pushAll_le {w : Worklist} (h : w.InStep) (ns : List Nat) :
    (w.pushAll ns).toList.length ≤ w.toList.length + ns.length := by
  induction ns generalizing w with
  | nil => simp [pushAll]
  | cons n ns ih =>
    have hpush := length_push_le h n
    have hrest := ih (h.push n)
    simp only [pushAll, List.foldl_cons, List.length_cons] at hrest ⊢
    omega

theorem inStep_ofList (ns : List Nat) : (ofList ns).InStep := inStep_empty.pushAll ns

theorem mem_ofList (ns : List Nat) (m : Nat) : m ∈ (ofList ns).toList ↔ m ∈ ns := by
  rw [ofList, mem_pushAll inStep_empty]
  simp [empty, toList]

theorem toList_ofList {ns : List Nat} (h : ns.Nodup) : (ofList ns).toList = ns :=
  toList_pushAll inStep_empty h

/-! ## Popping -/

theorem pop?_eq_none_iff (w : Worklist) : w.pop? = none ↔ w.toList = [] := by
  rw [pop?, Option.map_eq_none_iff]
  exact w.queue.pop?_eq_none_iff

theorem toList_of_pop? {w rest : Worklist} {n : Nat} (h : w.pop? = some (n, rest)) :
    w.toList = n :: rest.toList := by
  simp only [pop?, Option.map_eq_some_iff, Prod.mk.injEq] at h
  obtain ⟨⟨m, q⟩, hq, rfl, rfl⟩ := h
  exact Queue.toList_of_pop? hq

theorem mem_of_pop? {w rest : Worklist} {n : Nat} (h : w.pop? = some (n, rest)) :
    n ∈ w.toList := by
  rw [toList_of_pop? h]
  exact List.mem_cons_self

theorem InStep.of_pop? {w rest : Worklist} {n : Nat} (h : w.InStep)
    (hpop : w.pop? = some (n, rest)) : rest.InStep := by
  have hlist := toList_of_pop? hpop
  have hnodup := h.nodup
  rw [hlist, List.nodup_cons] at hnodup
  have hqueued : rest.queued = (w.queued.erase n).1 := by
    simp only [pop?, Option.map_eq_some_iff, Prod.mk.injEq] at hpop
    obtain ⟨⟨m, q⟩, -, rfl, rfl⟩ := hpop
    rfl
  refine ⟨fun m => ?_, hnodup.2⟩
  rw [hqueued, BitSet.contains_erase, h.marked, hlist, List.mem_cons]
  constructor
  · rintro ⟨hne, hm⟩
    exact hm.resolve_left hne
  · intro hm
    exact ⟨fun he => hnodup.1 (he ▸ hm), Or.inr hm⟩

end FlowFacts.Worklist
