import FlowFacts.Proofs.BitSetHistory
import FlowFacts.Proofs.Constants
import FlowFacts.Proofs.Liveness
import Mathlib.Data.Set.Card

/-! # Facts and their flags

The solver goes by the flags of meeting and transfer, and compares facts by their stores. Both
are right because a fact is stored in one way only: each flag says exactly whether the fact has
changed as a function of the variables.
-/

namespace FlowFacts

/-- The operation gives a fact with the wanted view, and its flag tells whether the fact before
had another one. -/
def Tells {F α : Type} (view : F → Var → α) (before : F) (wanted : Var → α) (r : F × Bool) :
    Prop :=
  view r.1 = wanted ∧ (r.2 = true ↔ view before ≠ wanted)

theorem tells_of_ne {F α : Type} {view : F → Var → α} (hview : Function.Injective view)
    {before : F} {wanted : Var → α} {r : F × Bool} (hresult : view r.1 = wanted)
    (hflag : r.2 = true ↔ before ≠ r.1) : Tells view before wanted r := by
  refine ⟨hresult, ?_⟩
  rw [hflag, ← hresult, hview.ne_iff]

/-! ## Facts about constants -/

namespace ConstFact

theorem get_injective : Function.Injective get := fun _ _ h => ext (congrFun h)

theorem mem_keys {f : ConstFact} {v : Var} :
    v ∈ f.entries.map Prod.fst ↔ f.get v ≠ .undefined := by
  rw [List.mem_map]
  constructor
  · rintro ⟨⟨u, x⟩, he, rfl⟩
    have hx := f.defined _ he
    rw [(get_eq_iff_mem hx).mpr he]
    exact hx
  · intro h
    exact ⟨(v, f.get v), (get_eq_iff_mem h).mp rfl, rfl⟩

theorem size_eq_ncard (f : ConstFact) : f.size = Set.ncard {v | f.get v ≠ .undefined} := by
  have hset : {v | f.get v ≠ .undefined} = ((f.entries.map Prod.fst).toFinset : Set Var) := by
    ext v
    rw [List.coe_toFinset]
    exact mem_keys.symm
  have hnodup : (f.entries.map Prod.fst).Nodup := List.pairwise_map.mpr f.distinct
  rw [hset, Set.ncard_coe_finset, List.toFinset_card_of_nodup hnodup, List.length_map, size]

theorem find?_eq_some_iff {f : ConstFact} {v : Var} {x : Value} :
    f.find? v = some x ↔ f.get v = x ∧ x ≠ .undefined := by
  unfold find?
  rw [lookup_eq_some_iff f.distinct]
  constructor
  · intro h
    have hx := f.defined _ h
    exact ⟨(get_eq_iff_mem hx).mpr h, hx⟩
  · rintro ⟨h, hx⟩
    exact (get_eq_iff_mem hx).mp h

theorem ne_write_iff {f : ConstFact} {v : Var} {x : Value} :
    f.get ≠ (fun u => if u = v then x else f.get u) ↔ f.get v ≠ x := by
  rw [not_iff_not, funext_iff]
  constructor
  · intro h
    rw [h v, if_pos rfl]
  · intro h u
    split
    · rename_i hu
      rw [hu, h]
    · rfl

theorem erase_tells (f : ConstFact) (v : Var) :
    Tells get f (fun u => if u = v then .undefined else f.get u) (f.erase v) := by
  refine ⟨funext (get_erase f v), ?_⟩
  have hflag : (f.erase v).2 = (f.find? v).isSome := rfl
  rw [ne_write_iff, hflag, Option.isSome_iff_exists]
  simp only [find?_eq_some_iff, exists_eq_left']

theorem update_tells (f : ConstFact) (v : Var) (x : Value) :
    Tells get f (fun u => if u = v then x else f.get u) (f.update v x) := by
  refine ⟨funext (get_update f v · x), ?_⟩
  by_cases hx : x = .undefined
  · rw [update, dif_pos hx, hx]
    exact (f.erase_tells v).2
  · have hfind : f.find? v = some x ↔ f.get v = x := by
      rw [find?_eq_some_iff]
      exact and_iff_left hx
    rw [ne_write_iff, ne_eq, ← hfind, update, dif_neg hx]
    split <;> simp_all

theorem overwrite_tells (f g : ConstFact) : Tells get f g.get (overwrite f g) :=
  tells_of_ne get_injective rfl overwrite_snd_iff

theorem le_meetEntry (target : ConstFact) (flag : Bool) (e : Var × Value) :
    target ≤ (meetEntry (target, flag) e).1 := by
  intro v
  unfold meetEntry
  rw [get_update]
  split
  · rename_i hv
    rw [hv]
    exact Value.le_meet_right _ _
  · exact Value.le_refl _

theorem ne_iff_of_le {α : Type} [PartialOrder α] {x y z : α} (hxy : x ≤ y) (hyz : y ≤ z) :
    x ≠ y ∨ y ≠ z ↔ x ≠ z := by
  constructor
  · rintro (hne | hne) rfl
    · exact hne (le_antisymm hxy hyz)
    · exact hne (le_antisymm hyz hxy)
  · intro hne
    by_cases he : x = y
    · exact Or.inr (he ▸ hne)
    · exact Or.inl he

theorem meetEntries_flag (entries : List (Var × Value)) (target : ConstFact) (flag : Bool) :
    target ≤ (entries.foldl meetEntry (target, flag)).1 ∧
      ((entries.foldl meetEntry (target, flag)).2 = true ↔
        flag = true ∨ target ≠ (entries.foldl meetEntry (target, flag)).1) := by
  induction entries generalizing target flag with
  | nil => simp
  | cons e entries ih =>
    have hle := le_meetEntry target flag e
    have hentry : (meetEntry (target, flag) e).2 = true ↔
        flag = true ∨ target ≠ (meetEntry (target, flag) e).1 := by
      have htells := target.update_tells e.1 (e.2.meet (target.get e.1))
      unfold meetEntry
      rw [Bool.or_eq_true, htells.2, ← htells.1, get_injective.ne_iff]
    rw [List.foldl_cons]
    obtain ⟨hrest, hflag⟩ := ih (meetEntry (target, flag) e).1 (meetEntry (target, flag) e).2
    refine ⟨hle.trans hrest, ?_⟩
    rw [hflag, hentry, or_assoc]
    -- What has risen does not come back, so no later entry undoes the change that is told.
    exact or_congr_right (ne_iff_of_le hle hrest)

theorem lookup_perm {l m : List (Var × Value)} (h : l.Perm m)
    (hm : m.Pairwise fun a b => a.1 ≠ b.1) (v : Var) : l.lookup v = m.lookup v := by
  have hl : l.Pairwise fun a b => a.1 ≠ b.1 := h.symm.pairwise hm Ne.symm
  apply Option.ext
  intro x
  rw [lookup_eq_some_iff hl, lookup_eq_some_iff hm, h.mem_iff]

theorem meetEntries_tells {entries : List (Var × Value)} {fact : ConstFact}
    (h : entries.Perm fact.entries) (target : ConstFact) :
    Tells get target (fun v => (fact.get v).meet (target.get v)) (meetEntries entries target) := by
  have hdistinct : entries.Pairwise fun a b => a.1 ≠ b.1 := h.symm.pairwise fact.distinct Ne.symm
  apply tells_of_ne get_injective
  · funext v
    unfold meetEntries
    rw [get_meetEntries entries target false v hdistinct, lookup_perm h fact.distinct]
    rfl
  · unfold meetEntries
    rw [(meetEntries_flag entries target false).2]
    simp

end ConstFact

theorem Constants.transfer_tells {p : Procedure} {s : Stmt}
    (h : ∀ v ∈ s.defines, p.knows v = true) (input output : ConstFact) :
    ∃ r, transfer p s input output = some r ∧
      Tells ConstFact.get output (fun v => if s.defines = some v ∧ Followed p v
        then assignedValue s input else input.get v) r ∧
      transfer p s input r.1 = some (r.1, false) := by
  refine ⟨_, transfer_eq h input output, ?_, ?_⟩
  · rw [← funext (get_flow s input)]
    exact ConstFact.overwrite_tells output (flow p s input)
  · rw [transfer_eq h]
    simp [overwrite]

/-! ## Sets of variables -/

namespace VarSet

theorem contains_injective : Function.Injective contains := by
  intro s t h
  apply ext
  intro v
  show s.contains v = true ↔ t.contains v = true
  rw [h]

theorem contains_eq_decide {s : VarSet} {v : Var} {P : Prop} [Decidable P] (h : v ∈ s ↔ P) :
    s.contains v = decide P := by
  have hmem : s.contains v = true ↔ P := h
  rw [Bool.eq_iff_iff, hmem, decide_eq_true_iff]

theorem insert_flag (s : VarSet) (v : Var) : (s.insert v).2 = !s.contains v := by
  unfold insert
  split <;> simp_all

theorem erase_flag (s : VarSet) (v : Var) : (s.erase v).2 = s.contains v := by
  unfold erase
  split <;> simp_all

theorem insert_tells (s : VarSet) (v : Var) :
    Tells contains s (fun u => decide (u = v ∨ u ∈ s)) (s.insert v) := by
  apply tells_of_ne contains_injective
  · exact funext fun u => contains_eq_decide mem_insert
  · rw [insert_flag, Bool.not_eq_true']
    constructor
    · intro hv he
      have hmem : v ∈ (s.insert v).1 := mem_insert.mpr (Or.inl rfl)
      rw [← he] at hmem
      exact Bool.false_ne_true (hv.symm.trans hmem)
    · intro hne
      by_contra hv
      rw [Bool.not_eq_false] at hv
      apply hne
      rw [insert, if_pos hv]

theorem erase_tells (s : VarSet) (v : Var) :
    Tells contains s (fun u => decide (u ∈ s ∧ u ≠ v)) (s.erase v) := by
  apply tells_of_ne contains_injective
  · exact funext fun u => contains_eq_decide mem_erase
  · rw [erase_flag]
    constructor
    · intro hv he
      have hmem : v ∈ s := hv
      rw [he] at hmem
      exact (mem_erase.mp hmem).2 rfl
    · intro hne
      by_contra hv
      apply hne
      rw [erase, if_neg hv]

theorem union_tells (s t : VarSet) :
    Tells contains s (fun u => decide (u ∈ s ∨ u ∈ t)) (s.union t) := by
  apply tells_of_ne contains_injective
  · exact funext fun u => contains_eq_decide mem_union
  · have hflag : (s.union t).2 = true ↔ (s.union t).1.size ≠ s.size := bne_iff_ne
    rw [hflag, ne_eq, ne_eq, not_iff_not]
    constructor
    · -- The old members are among the new ones, so as many members are the same members.
      intro hsize
      have hsub : s.vars ⊆ (s.union t).1.vars := by
        intro u hu
        exact mem_iff.mp (mem_union.mpr (Or.inl (mem_iff.mpr hu)))
      have hperm := (List.subperm_of_subset s.nodup hsub).perm_of_length_le hsize.le
      apply ext
      intro u
      rw [mem_iff, mem_iff, hperm.mem_iff]
    · intro he
      rw [← he]

theorem overwrite_tells (s t : VarSet) : Tells contains s t.contains (overwrite s t) :=
  tells_of_ne contains_injective rfl overwrite_snd_iff

/-! ## Sets of variables kept as bits -/

/-- The bits are those at the indices of the variables, and their count is right. -/
structure StoredIn (s : VarSet) (b : BitSet) : Prop where
  counted : b.Exact
  bits : ∀ i, b.contains i = true ↔ ∃ v ∈ s, v.index = i

theorem storedIn_empty : empty.StoredIn .empty :=
  ⟨BitSet.denotes_empty.counted, fun i => by simp⟩

theorem StoredIn.contains_iff {s : VarSet} {b : BitSet} (h : s.StoredIn b) (v : Var) :
    b.contains v.index = true ↔ v ∈ s := by
  rw [h.bits]
  constructor
  · rintro ⟨u, hu, he⟩
    exact Var.eq_of_index_eq he ▸ hu
  · exact fun hv => ⟨v, hv, rfl⟩

theorem StoredIn.insert {s : VarSet} {b : BitSet} (h : s.StoredIn b) (v : Var) :
    (s.insert v).1.StoredIn (b.insert v.index).1 ∧ (b.insert v.index).2 = (s.insert v).2 := by
  refine ⟨⟨h.counted.insert v.index, fun i => ?_⟩, ?_⟩
  · rw [BitSet.contains_insert, h.bits]
    simp only [mem_insert, or_and_right, exists_or, exists_eq_left, @eq_comm _ i]
  · rw [BitSet.insert_flag, insert_flag, Bool.eq_iff_iff.mpr (h.contains_iff v)]

theorem StoredIn.erase {s : VarSet} {b : BitSet} (h : s.StoredIn b) (v : Var) :
    (s.erase v).1.StoredIn (b.erase v.index).1 ∧ (b.erase v.index).2 = (s.erase v).2 := by
  refine ⟨⟨h.counted.erase v.index, fun i => ?_⟩, ?_⟩
  · rw [BitSet.contains_erase, h.bits]
    constructor
    · rintro ⟨hne, u, hu, rfl⟩
      exact ⟨u, mem_erase.mpr ⟨hu, fun he => hne (he ▸ rfl)⟩, rfl⟩
    · rintro ⟨u, hu, rfl⟩
      obtain ⟨hu, hne⟩ := mem_erase.mp hu
      exact ⟨fun he => hne (Var.eq_of_index_eq he), u, hu, rfl⟩
  · rw [BitSet.erase_flag, erase_flag, Bool.eq_iff_iff.mpr (h.contains_iff v)]

theorem StoredIn.members_subset_iff {s t : VarSet} {b c : BitSet} (hs : s.StoredIn b)
    (ht : t.StoredIn c) : c.members ⊆ b.members ↔ t ≤ s := by
  simp only [Finset.subset_iff, BitSet.mem_members]
  constructor
  · intro h v hv
    exact (hs.contains_iff v).mp (h ((ht.contains_iff v).mpr hv))
  · intro h i hi
    obtain ⟨v, hv, rfl⟩ := (ht.bits i).mp hi
    exact (hs.contains_iff v).mpr (h v hv)

theorem StoredIn.union {s t : VarSet} {b c : BitSet} (hs : s.StoredIn b) (ht : t.StoredIn c) :
    (s.union t).1.StoredIn (b.union c).1 ∧ (b.union c).2 = (s.union t).2 := by
  refine ⟨⟨hs.counted.union c, fun i => ?_⟩, ?_⟩
  · rw [BitSet.contains_union, Bool.or_eq_true, hs.bits, ht.bits]
    simp only [mem_union, or_and_right, exists_or]
  · have htells := s.union_tells t
    rw [Bool.eq_iff_iff, BitSet.union_flag, hs.members_subset_iff ht, htells.2, ← htells.1,
      contains_injective.ne_iff, ne_comm]
    exact not_congr sup_eq_left.symm

theorem StoredIn.beq_iff {s t : VarSet} {b c : BitSet} (hs : s.StoredIn b) (ht : t.StoredIn c) :
    (b == c) = true ↔ s = t := by
  rw [BitSet.beq_iff hs.counted ht.counted, Finset.Subset.antisymm_iff,
    hs.members_subset_iff ht, ht.members_subset_iff hs]
  exact le_antisymm_iff.symm

end VarSet

theorem Liveness.transfer_tells (s : Stmt) (after old : VarSet) :
    ∃ r, transfer s after old = some r ∧
      Tells VarSet.contains old
        (fun v => decide (v ∈ s.uses ∨ (v ∈ after ∧ s.defines ≠ some v))) r ∧
      transfer s after r.1 = some (r.1, false) := by
  have hview : (before s after).contains =
      fun v => decide (v ∈ s.uses ∨ (v ∈ after ∧ s.defines ≠ some v)) :=
    funext fun v => VarSet.contains_eq_decide mem_before
  refine ⟨_, rfl, ?_, ?_⟩
  · rw [← hview]
    exact VarSet.overwrite_tells old (before s after)
  · simp [transfer, overwrite]

/-! ## The contract -/

/-- What the solver may rely on in constant propagation: facts are known by their values, each
operation gives the values that it should and tells whether they are new, and the transfer looks at
its input only, so that a second one changes nothing. -/
structure Constants.KeepsContract (p : Procedure) : Prop where
  eq_iff : ∀ f g : ConstFact, f = g ↔ ∀ v, f.get v = g.get v
  stored : ∀ f : ConstFact, ∀ e ∈ f.entries, e.2 ≠ .undefined
  size : ∀ f : ConstFact, f.size = Set.ncard {v | f.get v ≠ .undefined}
  update : ∀ (f : ConstFact) v x,
    Tells ConstFact.get f (fun u => if u = v then x else f.get u) (f.update v x)
  erase : ∀ (f : ConstFact) v,
    Tells ConstFact.get f (fun u => if u = v then .undefined else f.get u) (f.erase v)
  overwrite : ∀ f g : ConstFact, Tells ConstFact.get f g.get (overwrite f g)
  /-- The entries may be met in any order. -/
  meet : ∀ (fact target : ConstFact) entries, entries.Perm fact.entries →
    Tells ConstFact.get target (fun v => (fact.get v).meet (target.get v))
      (ConstFact.meetEntries entries target)
  transfer : ∀ s : Stmt, (∀ v ∈ s.defines, p.knows v = true) → ∀ input output, ∃ r,
    Constants.transfer p s input output = some r ∧
      Tells ConstFact.get output (fun v => if s.defines = some v ∧ Followed p v
        then assignedValue s input else input.get v) r ∧
      Constants.transfer p s input r.1 = some (r.1, false)

/-- The same for live variables. -/
structure Liveness.KeepsContract : Prop where
  eq_iff : ∀ s t : VarSet, s = t ↔ ∀ v, v ∈ s ↔ v ∈ t
  insert : ∀ (s : VarSet) v,
    Tells VarSet.contains s (fun u => decide (u = v ∨ u ∈ s)) (s.insert v)
  erase : ∀ (s : VarSet) v,
    Tells VarSet.contains s (fun u => decide (u ∈ s ∧ u ≠ v)) (s.erase v)
  union : ∀ s t : VarSet,
    Tells VarSet.contains s (fun u => decide (u ∈ s ∨ u ∈ t)) (s.union t)
  overwrite : ∀ s t : VarSet, Tells VarSet.contains s t.contains (overwrite s t)
  meet : ∀ fact target : VarSet,
    Tells VarSet.contains target (fun u => decide (u ∈ target ∨ u ∈ fact)) (meetInto fact target)
  transfer : ∀ s after old, ∃ r, Liveness.transfer s after old = some r ∧
    Tells VarSet.contains old
      (fun v => decide (v ∈ s.uses ∨ (v ∈ after ∧ s.defines ≠ some v))) r ∧
    Liveness.transfer s after r.1 = some (r.1, false)

/-- Sets of variables may be kept as bits: what the operations do, what they tell and which sets
are equal stays the same. -/
structure VarSet.MayBeBits : Prop where
  empty : VarSet.empty.StoredIn .empty
  insert : ∀ (s : VarSet) b v, s.StoredIn b →
    (s.insert v).1.StoredIn (b.insert v.index).1 ∧ (b.insert v.index).2 = (s.insert v).2
  erase : ∀ (s : VarSet) b v, s.StoredIn b →
    (s.erase v).1.StoredIn (b.erase v.index).1 ∧ (b.erase v.index).2 = (s.erase v).2
  union : ∀ (s t : VarSet) b c, s.StoredIn b → t.StoredIn c →
    (s.union t).1.StoredIn (b.union c).1 ∧ (b.union c).2 = (s.union t).2
  beq_iff : ∀ (s t : VarSet) b c, s.StoredIn b → t.StoredIn c → ((b == c) = true ↔ s = t)

/-- Both analyses keep the contract on all facts, however the sets of variables are stored. -/
theorem facts_keep_contract (p : Procedure) :
    Constants.KeepsContract p ∧ Liveness.KeepsContract ∧ VarSet.MayBeBits := by
  refine ⟨⟨?_, fun f => f.defined, ConstFact.size_eq_ncard, ConstFact.update_tells,
    ConstFact.erase_tells, ConstFact.overwrite_tells, ?_, ?_⟩, ⟨?_, VarSet.insert_tells,
    VarSet.erase_tells, VarSet.union_tells, VarSet.overwrite_tells, ?_, Liveness.transfer_tells⟩,
    ⟨VarSet.storedIn_empty, ?_, ?_, ?_, ?_⟩⟩
  · intro f g
    exact ⟨fun h v => by rw [h], ConstFact.ext⟩
  · exact fun fact target entries h => ConstFact.meetEntries_tells h target
  · exact fun s h input output => Constants.transfer_tells h input output
  · intro s t
    exact ⟨fun h v => by rw [h], VarSet.ext⟩
  · exact fun fact target => target.union_tells fact
  · exact fun s b v h => h.insert v
  · exact fun s b v h => h.erase v
  · exact fun s t b c hs ht => hs.union ht
  · exact fun s t b c hs ht => hs.beq_iff ht

end FlowFacts
