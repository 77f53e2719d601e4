import FlowFacts.Proofs.Worklist
import Mathlib.Data.Nat.Find

/-! # Worklists are first-in first-out

What a worklist holds and gives, told by the record of all its pushes and pops. A node waits from
the first push after its last pop, and nodes leave in the order in which they began to wait.
-/

namespace FlowFacts.Worklist

/-! ## Records -/

/-- A push or a pop of one node. -/
inductive Move where
  | pushed (n : Nat)
  | popped (n : Nat)
deriving DecidableEq, Repr

/-- No pop of the node between two moments. -/
def Quiet (past : List Move) (n s t : Nat) : Prop :=
  ∀ u, s < u → u < t → past[u]? ≠ some (.popped n)

/-- Just before moment `now`, the node waits since moment `t`: then it was pushed for the first time
after its last pop. -/
structure WaitsSince (past : List Move) (now n t : Nat) : Prop where
  earlier : t < now
  pushed : past[t]? = some (.pushed n)
  kept : Quiet past n t now
  first : ∀ s < t, past[s]? = some (.pushed n) → ¬ Quiet past n s t

variable {past : List Move} {now m n t : Nat}

theorem WaitsSince.unique {s t : Nat} (hs : WaitsSince past now n s)
    (ht : WaitsSince past now n t) : s = t := by
  have hnot : ∀ {s t : Nat}, WaitsSince past now n s → WaitsSince past now n t → ¬ s < t := by
    intro s t hs ht hlt
    have hearlier := ht.earlier
    exact ht.first s hlt hs.pushed fun u hsu hut => hs.kept u hsu (by omega)
  exact Nat.le_antisymm (Nat.not_lt.mp (hnot ht hs)) (Nat.not_lt.mp (hnot hs ht))

theorem exists_waitsSince {s : Nat} (hnow : s < now) (hs : past[s]? = some (.pushed n))
    (hkept : Quiet past n s now) : ∃ t, WaitsSince past now n t := by
  classical
  have hex : ∃ s, s < now ∧ past[s]? = some (.pushed n) ∧ Quiet past n s now :=
    ⟨s, hnow, hs, hkept⟩
  obtain ⟨hnow, hpushed, hkept⟩ := Nat.find_spec hex
  refine ⟨Nat.find hex, hnow, hpushed, hkept, fun r hr hpush hquiet => ?_⟩
  -- The earliest push with no pop after it is the first one since the last pop.
  refine Nat.find_min hex hr ⟨by omega, hpush, fun u hru hunow => ?_⟩
  rcases Nat.lt_trichotomy u (Nat.find hex) with hus | hus | hus
  · exact hquiet u hru hus
  · rw [hus, hpushed]
    simp
  · exact hkept u hus hunow

theorem WaitsSince.before {later : Nat} (h : WaitsSince past later n t) (hnow : t < now)
    (hle : now ≤ later) : WaitsSince past now n t :=
  ⟨hnow, h.pushed, fun u htu hu => h.kept u htu (by omega), h.first⟩

theorem WaitsSince.of_agree {past' : List Move} (h : WaitsSince past now n t)
    (hagree : ∀ u < now, past'[u]? = past[u]?) : WaitsSince past' now n t := by
  have hearlier := h.earlier
  refine ⟨hearlier, ?_, fun u htu hu => ?_, fun s hs hpushed hquiet => ?_⟩
  · rw [hagree t hearlier]
    exact h.pushed
  · rw [hagree u hu]
    exact h.kept u htu hu
  · rw [hagree s (by omega)] at hpushed
    refine h.first s hs hpushed fun u hsu hut => ?_
    rw [← hagree u (by omega)]
    exact hquiet u hsu hut

theorem waitsSince_append (later : List Move) (h : now ≤ past.length) :
    WaitsSince (past ++ later) now n t ↔ WaitsSince past now n t := by
  have hget : ∀ u < now, (past ++ later)[u]? = past[u]? := fun u hu =>
    List.getElem?_append_left (by omega)
  exact ⟨fun hw => hw.of_agree fun u hu => (hget u hu).symm, fun hw => hw.of_agree hget⟩

/-! ## The end of a record -/

/-- The node waits at the end of the record. -/
def Waits (past : List Move) (n : Nat) : Prop := ∃ t, WaitsSince past past.length n t

/-- At the end of the record both nodes wait, the first one for longer. -/
def WaitsLonger (past : List Move) (m n : Nat) : Prop :=
  ∃ s t, WaitsSince past past.length m s ∧ WaitsSince past past.length n t ∧ s < t

theorem waits_iff :
    Waits past n ↔ ∃ t < past.length, past[t]? = some (.pushed n) ∧ Quiet past n t past.length := by
  constructor
  · rintro ⟨t, ht⟩
    exact ⟨t, ht.earlier, ht.pushed, ht.kept⟩
  · rintro ⟨t, hnow, hpushed, hkept⟩
    exact exists_waitsSince hnow hpushed hkept

theorem WaitsSince.concat {e : Move} (h : WaitsSince past past.length n t) (he : e ≠ .popped n) :
    WaitsSince (past ++ [e]) (past ++ [e]).length n t := by
  have hold := (waitsSince_append [e] (Nat.le_refl _)).mpr h
  have hearlier := h.earlier
  rw [List.length_append, List.length_singleton]
  refine ⟨by omega, hold.pushed, fun u htu hu => ?_, hold.first⟩
  rcases Nat.lt_succ_iff_lt_or_eq.mp hu with hlt | rfl
  · exact hold.kept u htu hlt
  · simpa using he

theorem WaitsSince.of_concat {e : Move} (h : WaitsSince (past ++ [e]) (past ++ [e]).length n t) :
    e = .pushed n ∨ e ≠ .popped n ∧ WaitsSince past past.length n t := by
  rw [List.length_append, List.length_singleton] at h
  rcases Nat.lt_succ_iff_lt_or_eq.mp h.earlier with hlt | heq
  · have hold := h.before hlt (Nat.le_succ _)
    have hlast := h.kept past.length hlt (Nat.lt_succ_self _)
    exact Or.inr ⟨by simpa using hlast, (waitsSince_append [e] (Nat.le_refl _)).mp hold⟩
  · have hpushed := h.pushed
    rw [heq] at hpushed
    exact Or.inl (by simpa using hpushed)

theorem waitsSince_pushed (hnot : ¬ Waits past n) :
    WaitsSince (past ++ [.pushed n]) (past ++ [Move.pushed n]).length n past.length := by
  refine ⟨by simp, by simp, fun u hu hu' => ?_, fun s hs hpushed hquiet => hnot ?_⟩
  · simp only [List.length_append, List.length_singleton] at hu'
    omega
  · obtain ⟨t, ht⟩ := exists_waitsSince hs hpushed hquiet
    exact ⟨t, (waitsSince_append _ (Nat.le_refl _)).mp ht⟩

theorem waits_pushed : Waits (past ++ [.pushed n]) m ↔ Waits past m ∨ m = n := by
  constructor
  · rintro ⟨t, ht⟩
    rcases ht.of_concat with heq | ⟨-, hold⟩
    · exact Or.inr (Move.pushed.inj heq).symm
    · exact Or.inl ⟨t, hold⟩
  · intro h
    by_cases hm : Waits past m
    · obtain ⟨t, ht⟩ := hm
      exact ⟨t, ht.concat (by simp)⟩
    · obtain rfl := h.resolve_left hm
      exact ⟨past.length, waitsSince_pushed hm⟩

theorem waits_popped : Waits (past ++ [.popped n]) m ↔ Waits past m ∧ m ≠ n := by
  constructor
  · rintro ⟨t, ht⟩
    rcases ht.of_concat with heq | ⟨hne, hold⟩
    · simp at heq
    · exact ⟨⟨t, hold⟩, by simpa using Ne.symm hne⟩
  · rintro ⟨⟨t, ht⟩, hne⟩
    exact ⟨t, ht.concat (by simpa using hne.symm)⟩

theorem WaitsLonger.concat {e : Move} (h : WaitsLonger past m n) (hm : e ≠ .popped m)
    (hn : e ≠ .popped n) : WaitsLonger (past ++ [e]) m n := by
  obtain ⟨s, t, hs, ht, hst⟩ := h
  exact ⟨s, t, hs.concat hm, ht.concat hn, hst⟩

theorem waitsLonger_pushed (hm : Waits past m) (hn : ¬ Waits past n) :
    WaitsLonger (past ++ [.pushed n]) m n := by
  obtain ⟨s, hs⟩ := hm
  exact ⟨s, past.length, hs.concat (by simp), waitsSince_pushed hn, hs.earlier⟩

/-! ## What a record tells -/

/-- Just before moment `u`, the node has waited longer than all others that wait. -/
def Longest (past : List Move) (u m : Nat) : Prop :=
  ∃ s, WaitsSince past u m s ∧ ∀ n t, n ≠ m → WaitsSince past u n t → s < t

/-- What the record of all moves tells about a worklist. -/
structure Told (w : Worklist) (past : List Move) : Prop where
  inStep : w.InStep
  waiting : ∀ n, n ∈ w.toList ↔ Waits past n
  ordered : w.toList.Pairwise (WaitsLonger past)
  longest : ∀ u m, past[u]? = some (.popped m) → Longest past u m

theorem told_empty : Told empty [] := by
  refine ⟨inStep_empty, fun n => ?_, List.Pairwise.nil, fun u m h => by simp at h⟩
  constructor
  · intro h
    simp [empty, toList] at h
  · rintro ⟨t, ht⟩
    exact absurd ht.earlier (Nat.not_lt_zero t)

theorem longest_concat {e : Move}
    (hpast : ∀ u m, past[u]? = some (.popped m) → Longest past u m)
    (hlast : ∀ m, e = .popped m → Longest past past.length m) {u m : Nat}
    (h : (past ++ [e])[u]? = some (.popped m)) : Longest (past ++ [e]) u m := by
  have happend : ∀ {u}, u ≤ past.length → Longest past u m → Longest (past ++ [e]) u m := by
    intro u hu hlongest
    simpa only [Longest, waitsSince_append [e] hu] using hlongest
  rcases Nat.lt_or_ge u past.length with hu | hu
  · rw [List.getElem?_append_left hu] at h
    exact happend (Nat.le_of_lt hu) (hpast u m h)
  · obtain ⟨hlt, -⟩ := List.getElem?_eq_some_iff.mp h
    obtain rfl : u = past.length := by
      rw [List.length_append, List.length_singleton] at hlt
      omega
    exact happend (Nat.le_refl _) (hlast m (by simpa using h))

theorem Told.push {w : Worklist} (h : Told w past) (n : Nat) :
    Told (w.push n) (past ++ [.pushed n]) := by
  have hordered : w.toList.Pairwise (WaitsLonger (past ++ [.pushed n])) :=
    h.ordered.imp fun hlonger => hlonger.concat (by simp) (by simp)
  refine ⟨h.inStep.push n, fun m => ?_, ?_, fun u m => longest_concat h.longest (by simp)⟩
  · rw [mem_push h.inStep, h.waiting, waits_pushed]
  · rw [toList_push h.inStep]
    split
    · exact hordered
    · rename_i hn
      rw [h.waiting] at hn
      refine List.pairwise_append.mpr ⟨hordered, List.pairwise_singleton _ _, ?_⟩
      intro a ha b hb
      obtain rfl := List.mem_singleton.mp hb
      exact waitsLonger_pushed ((h.waiting a).mp ha) hn

theorem Told.pop {w rest : Worklist} {n : Nat} (h : Told w past)
    (hpop : w.pop? = some (n, rest)) : Told rest (past ++ [.popped n]) := by
  have hlist := toList_of_pop? hpop
  have hnodup := h.inStep.nodup
  have hordered := h.ordered
  rw [hlist, List.nodup_cons] at hnodup
  rw [hlist, List.pairwise_cons] at hordered
  have hrest : ∀ m, m ∈ rest.toList ↔ Waits past m ∧ m ≠ n := by
    intro m
    rw [← h.waiting, hlist, List.mem_cons]
    constructor
    · intro hm
      exact ⟨Or.inr hm, fun he => hnodup.1 (he ▸ hm)⟩
    · rintro ⟨hm, hne⟩
      exact hm.resolve_left hne
  refine ⟨h.inStep.of_pop? hpop, fun m => ?_, ?_, fun u m => longest_concat h.longest ?_⟩
  · rw [hrest, waits_popped]
  · refine hordered.2.imp_of_mem fun {a b} ha hb hlonger => ?_
    have hne : ∀ {c}, c ∈ rest.toList → Move.popped n ≠ .popped c := fun {c} hc => by
      simpa using ((hrest c).mp hc).2.symm
    exact hlonger.concat (hne ha) (hne hb)
  · -- The node that leaves stood in front of all others, so it has waited longest.
    rintro m he
    obtain rfl := Move.popped.inj he
    obtain ⟨s, hs⟩ := (h.waiting n).mp (by rw [hlist]; exact List.mem_cons_self)
    refine ⟨s, hs, fun m t hm ht => ?_⟩
    obtain ⟨s', t', hs', ht', hlt⟩ := hordered.1 m ((hrest m).mpr ⟨⟨t, ht⟩, hm⟩)
    rwa [hs.unique hs', ht.unique ht']

theorem Told.pushAll {w : Worklist} (h : Told w past) (ns : List Nat) :
    Told (w.pushAll ns) (past ++ ns.map .pushed) := by
  induction ns generalizing w past with
  | nil =>
    rw [List.map_nil, List.append_nil]
    exact h
  | cons n ns ih =>
    have hrest := ih (h.push n)
    rw [List.append_assoc, List.singleton_append] at hrest
    exact hrest

theorem Told.popped_in_order {w : Worklist} (h : Told w past) {u : Nat}
    (hu : past[u]? = some (.popped m)) :
    ∃ s, WaitsSince past u m s ∧ ∀ v n t, u < v → WaitsSince past v n t → s < t := by
  obtain ⟨s, hs, hlongest⟩ := h.longest u m hu
  refine ⟨s, hs, fun v n t huv ht => ?_⟩
  rcases Nat.lt_or_ge t u with htu | hut
  · -- The node waited already when the other one was popped.
    have hne : n ≠ m := by
      rintro rfl
      exact ht.kept u htu huv hu
    exact hlongest n t hne (ht.before htu (Nat.le_of_lt huv))
  · have hearlier := hs.earlier
    omega

/-! ## Histories -/

inductive Op where
  | pushAll (nodes : List Nat)
  | pop

/-- A worklist with the record of all its moves. -/
structure History where
  worklist : Worklist
  past : List Move

def History.step (h : History) : Op → History
  | .pushAll nodes => ⟨h.worklist.pushAll nodes, h.past ++ nodes.map .pushed⟩
  | .pop =>
    match h.worklist.pop? with
    | some (n, rest) => ⟨rest, h.past ++ [.popped n]⟩
    | none => h

/-- A worklist that is made from some nodes, after some operations. -/
def history (nodes : List Nat) (ops : List Op) : History :=
  ops.foldl History.step ⟨ofList nodes, nodes.map .pushed⟩

theorem told_step {h : History} (ht : Told h.worklist h.past) (op : Op) :
    Told (h.step op).worklist (h.step op).past := by
  cases op with
  | pushAll nodes => exact ht.pushAll nodes
  | pop =>
    cases hpop : h.worklist.pop? with
    | some found =>
      have hstep : h.step .pop = ⟨found.2, h.past ++ [.popped found.1]⟩ := by
        simp [History.step, hpop]
      rw [hstep]
      exact ht.pop hpop
    | none =>
      have hstep : h.step .pop = h := by simp [History.step, hpop]
      rw [hstep]
      exact ht

theorem told_history (nodes : List Nat) (ops : List Op) :
    Told (history nodes ops).worklist (history nodes ops).past := by
  unfold history
  have hstart : Told (ofList nodes) (nodes.map .pushed) := told_empty.pushAll nodes
  generalize ofList nodes = w at hstart ⊢
  generalize nodes.map Move.pushed = past at hstart ⊢
  induction ops generalizing w past with
  | nil => exact hstart
  | cons op ops ih => exact ih _ _ (told_step hstart op)

/-- Nodes leave a worklist in the order in which they began to wait. -/
theorem history_first_in_first_out (nodes : List Nat) (ops : List Op) :
    let w : Worklist := (history nodes ops).worklist
    let past : List Move := (history nodes ops).past
    w.toList.Nodup ∧ (∀ n, w.queued.contains n = true ↔ n ∈ w.toList) ∧
    (∀ n, n ∈ w.toList ↔
      ∃ t < past.length, past[t]? = some (.pushed n) ∧ Quiet past n t past.length) ∧
    w.toList.Pairwise (WaitsLonger past) ∧
    (∀ ns, (w.pushAll ns).toList = w.toList ++ (ns.filter fun n => n ∉ w.toList).eraseDups) ∧
    (match w.pop? with
      | some (n, rest) => w.toList = n :: rest.toList
      | none => w.toList = []) ∧
    ∀ u m : Nat, past[u]? = some (.popped m) → ∃ s, WaitsSince past u m s ∧
      ∀ v n t : Nat, u < v → past[v]? = some (.popped n) → WaitsSince past v n t → s < t := by
  intro w past
  have h : Told w past := told_history nodes ops
  refine ⟨h.inStep.nodup, h.inStep.marked, fun n => ?_, h.ordered, toList_pushAll_eq h.inStep, ?_, ?_⟩
  · rw [h.waiting, waits_iff]
  · split
    · rename_i n rest hpop
      exact toList_of_pop? hpop
    · rename_i hpop
      exact (pop?_eq_none_iff w).mp hpop
  · intro u m hu
    obtain ⟨s, hs, hlater⟩ := h.popped_in_order hu
    exact ⟨s, hs, fun v n t huv _ => hlater v n t huv⟩

end FlowFacts.Worklist
