import FlowFacts.Proofs.Contract
import FlowFacts.Proofs.Text

/-! # The texts of facts

Two facts have the same text exactly when they are equal. The text of a fact about constants has one
entry for each variable that has a value, in the order of the variables, in whatever order a map
gives its entries before they are sorted. The text of a set does not show how its bits are stored.
-/

namespace FlowFacts

/-! ## Words -/

theorem Var.text_injective : Function.Injective Var.text := by
  intro u v h
  have hlist := congrArg String.toList h
  simp only [text, String.toList_append, List.append_cancel_left_eq] at hlist
  exact eq_of_index_eq (Text.repr_inj hlist)

theorem Var.mem_text {v : Var} {c : Char} (h : c ∈ v.text.toList) : c = '%' ∨ c.isDigit = true := by
  rw [text, String.toList_append, List.mem_append] at h
  rcases h with h | h
  · exact Or.inl (by simpa using h)
  · exact Or.inr (Text.isDigit_of_mem_repr h)

theorem Var.index_ofIndex {i : Nat} (h : i < 2 ^ 32) : (ofIndex i).index = i := by
  simp only [ofIndex, index, Nat.toUInt32, UInt32.toNat_ofNat']
  exact Nat.mod_eq_of_lt h

namespace Value

theorem text_injective : Function.Injective text := by
  intro x y h
  cases x <;> cases y
  case constant.constant m n =>
    have hint := Text.int_repr_inj (congrArg String.toList h)
    exact congrArg constant (Int32.toInt_inj.mp hint)
  case constant.undefined | constant.nac => exact absurd h (Text.int_repr_ne (by decide))
  case undefined.constant | nac.constant => exact absurd h.symm (Text.int_repr_ne (by decide))
  case undefined.nac | nac.undefined => exact absurd h (by decide)
  all_goals rfl

theorem comma_not_mem_text (x : Value) : ',' ∉ x.text.toList := by
  cases x with
  | constant n => exact fun h => absurd (Text.mem_int_repr h) (by decide)
  | undefined | nac => decide

end Value

/-! ## Facts about constants -/

namespace ConstFact

theorem entryText_injective : Function.Injective entryText := by
  rintro ⟨u, x⟩ ⟨v, y⟩ h
  have hlist := congrArg String.toList h
  simp only [entryText, Var.text, String.toList_append, List.append_assoc,
    List.append_cancel_left_eq] at hlist
  obtain ⟨hindex, hrest⟩ := Text.repr_append_inj (by simp) (by simp) hlist
  rw [List.append_cancel_left_eq, String.toList_inj] at hrest
  exact Prod.ext (Var.eq_of_index_eq hindex) (Value.text_injective hrest)

theorem entryText_word (e : Var × Value) :
    (entryText e).toList ≠ [] ∧ ',' ∉ (entryText e).toList := by
  refine ⟨by simp [entryText], ?_⟩
  simp only [entryText, String.toList_append, List.mem_append, not_or]
  exact ⟨⟨fun h => absurd (Var.mem_text h) (by decide), by decide⟩, e.2.comma_not_mem_text⟩

theorem text_inj {f g : ConstFact} : f.text = g.text ↔ f = g := by
  refine ⟨fun h => ?_, fun h => by rw [h]⟩
  have hentries := Text.bracketed_inj entryText_injective entryText_word h
  cases f
  cases g
  simpa using hentries

theorem get_of_mem {f : ConstFact} {e : Var × Value} (h : e ∈ f.entries) : f.get e.1 = e.2 :=
  (get_eq_iff_mem (f.defined e h)).mpr h

theorem text_eq_values (f : ConstFact) :
    f.text = "\x7b" ++ ", ".intercalate
      ((f.entries.map Prod.fst).map fun v => v.text ++ "=" ++ (f.get v).text) ++ "\x7d" := by
  have hentries : f.entries.map entryText =
      (f.entries.map Prod.fst).map fun v => v.text ++ "=" ++ (f.get v).text := by
    rw [List.map_map]
    apply List.map_congr_left
    intro e he
    simp only [entryText, Function.comp, get_of_mem he]
  rw [text, hentries]

/-- A text that the entries of the fact give, listed in any order and then sorted by variable in
any way. -/
def Writes (f : ConstFact) (text : String) : Prop :=
  ∃ listed sorted : List (Var × Value), listed.Perm f.entries ∧ sorted.Perm listed ∧
    (sorted.Pairwise fun a b => a.1.index ≤ b.1.index) ∧
    text = "\x7b" ++ ", ".intercalate (sorted.map entryText) ++ "\x7d"

theorem writes_iff {f : ConstFact} {text : String} : f.Writes text ↔ text = f.text := by
  constructor
  · rintro ⟨listed, sorted, hlisted, hperm, hsorted, rfl⟩
    have hall := hperm.trans hlisted
    have hentries : sorted = f.entries := by
      apply hall.eq_of_pairwise _ hsorted (f.ascending.imp Nat.le_of_lt)
      intro a b ha hb hab hba
      have hvar := Var.eq_of_index_eq (Nat.le_antisymm hab hba)
      refine Prod.ext hvar ?_
      rw [← get_of_mem (hall.mem_iff.mp ha), ← get_of_mem hb, hvar]
    rw [hentries]
    rfl
  · rintro rfl
    exact ⟨f.entries, f.entries, .refl _, .refl _, f.ascending.imp Nat.le_of_lt, rfl⟩

end ConstFact

/-! ## Sets of variables -/

namespace VarSet

theorem text_inj {s t : VarSet} : s.text = t.text ↔ s = t := by
  refine ⟨fun h => ?_, fun h => by rw [h]⟩
  have hword : ∀ v : Var, v.text.toList ≠ [] ∧ ',' ∉ v.text.toList := by
    intro v
    exact ⟨by simp [Var.text], fun h => absurd (Var.mem_text h) (by decide)⟩
  have hvars := Text.bracketed_inj Var.text_injective hword h
  cases s
  cases t
  simpa using hvars

end VarSet

namespace BitSet

/-- The variables whose slots are in the set, in the order of its bits. -/
def vars (b : BitSet) : List Var := b.toList.map Var.ofIndex

/-- The text of a set of variables that is kept as bits. -/
def varsText (b : BitSet) : String := "[" ++ ", ".intercalate (b.vars.map Var.text) ++ "]"

/-- All numbers in the set are slots. -/
def HoldsSlots (b : BitSet) : Prop := ∀ i, b.contains i = true → i < 2 ^ 32

theorem HoldsSlots.vars_ascending {b : BitSet} (h : b.HoldsSlots) : b.vars.Pairwise (· < ·) := by
  unfold vars
  rw [List.pairwise_map]
  refine b.toList_ascending.imp_of_mem fun hi hj hlt => ?_
  have hi' := h _ (mem_toList.mp hi)
  have hj' := h _ (mem_toList.mp hj)
  rwa [Var.lt_iff, Var.index_ofIndex hi', Var.index_ofIndex hj']

theorem HoldsSlots.mem_vars {b : BitSet} (h : b.HoldsSlots) {v : Var} :
    v ∈ b.vars ↔ b.contains v.index = true := by
  unfold vars
  rw [List.mem_map, ← mem_toList]
  constructor
  · rintro ⟨i, hi, rfl⟩
    rwa [Var.index_ofIndex (h i (mem_toList.mp hi))]
  · exact fun hv => ⟨v.index, hv, v.ofIndex_index⟩

/-- The set of variables that the bits stand for. -/
def HoldsSlots.varSet {b : BitSet} (h : b.HoldsSlots) : VarSet := ⟨b.vars, h.vars_ascending⟩

theorem HoldsSlots.storedIn {b : BitSet} (h : b.HoldsSlots) (hexact : b.Exact) :
    h.varSet.StoredIn b := by
  refine ⟨hexact, fun i => ?_⟩
  simp only [VarSet.mem_iff, varSet, h.mem_vars]
  constructor
  · intro hi
    have hindex := Var.index_ofIndex (h i hi)
    exact ⟨Var.ofIndex i, hindex.symm ▸ hi, hindex⟩
  · rintro ⟨v, hv, rfl⟩
    exact hv

theorem varsText_inj {b c : BitSet} (hb : b.HoldsSlots) (hc : c.HoldsSlots) (hbe : b.Exact)
    (hce : c.Exact) : b.varsText = c.varsText ↔ (b == c) = true := by
  have hb' : b.varsText = hb.varSet.text := rfl
  have hc' : c.varsText = hc.varSet.text := rfl
  rw [hb', hc', VarSet.text_inj, (hb.storedIn hbe).beq_iff (hc.storedIn hce)]

end BitSet

theorem VarSet.StoredIn.text_eq {s : VarSet} {b : BitSet} (h : s.StoredIn b) :
    b.varsText = s.text := by
  have hslots : b.HoldsSlots := by
    intro i hi
    obtain ⟨v, -, rfl⟩ := (h.bits i).mp hi
    exact v.slot.toNat_lt
  have hsame : hslots.varSet = s := by
    apply VarSet.ext
    intro v
    rw [VarSet.mem_iff, ← h.contains_iff]
    exact hslots.mem_vars
  rw [← hsame]
  rfl

/-! ## All texts -/

/-- The texts tell facts apart, in whatever order their entries or bits came. -/
theorem texts_tell_facts :
    (∀ (f g : ConstFact) (t u : String), f.Writes t → g.Writes u → (t = u ↔ f = g)) ∧
    (∀ (f : ConstFact) (t : String), f.Writes t ↔ t = f.text) ∧
    (∀ f : ConstFact, ∃ vars : List Var, vars.Pairwise (· < ·) ∧
      (∀ v, v ∈ vars ↔ f.get v ≠ .undefined) ∧
      f.text = "\x7b" ++
        ", ".intercalate (vars.map fun v => v.text ++ "=" ++ (f.get v).text) ++ "\x7d") ∧
    (∀ s t : VarSet, s.text = t.text ↔ s = t) ∧
    (∀ s : VarSet, ∃ vars : List Var, vars.Pairwise (· < ·) ∧ (∀ v, v ∈ vars ↔ v ∈ s) ∧
      s.text = "[" ++ ", ".intercalate (vars.map Var.text) ++ "]") ∧
    (∀ (s : VarSet) (b : BitSet), s.StoredIn b → b.varsText = s.text) ∧
    ∀ ops ops' r q, (BitSet.bitSets ops r).HoldsSlots → (BitSet.bitSets ops' q).HoldsSlots →
      (BitSet.bitSets ops r).vars.Pairwise (· < ·) ∧
      (∀ v, v ∈ (BitSet.bitSets ops r).vars ↔ v.index ∈ BitSet.finiteSets ops r) ∧
      ((BitSet.bitSets ops r).varsText = (BitSet.bitSets ops' q).varsText ↔
        (BitSet.bitSets ops r == BitSet.bitSets ops' q) = true) := by
  refine ⟨?_, fun f t => ConstFact.writes_iff, ?_, fun s t => VarSet.text_inj, ?_,
    fun s b h => h.text_eq, ?_⟩
  · intro f g t u ht hu
    rw [ConstFact.writes_iff.mp ht, ConstFact.writes_iff.mp hu, ConstFact.text_inj]
  · intro f
    exact ⟨f.entries.map Prod.fst, List.pairwise_map.mpr f.ascending, fun v => ConstFact.mem_keys,
      f.text_eq_values⟩
  · intro s
    exact ⟨s.vars, s.ascending, fun v => VarSet.mem_iff.symm, rfl⟩
  · intro ops ops' r q hr hq
    have hdenotes := BitSet.denotes_history ops r
    refine ⟨hr.vars_ascending, fun v => ?_, BitSet.varsText_inj hr hq hdenotes.counted
      (BitSet.denotes_history ops' q).counted⟩
    rw [hr.mem_vars, ← hdenotes.members, BitSet.mem_members]

theorem texts_of_one_seventy :
    let f := ConstFact.ofList [(⟨1⟩, .nac), (⟨70⟩, .constant (-2))]
    let long : List BitSet.Op := [.withCapacity 0 200, .insert 0 70, .insert 0 1, .erase 0 70]
    let short : List BitSet.Op := [.ofList 1 [1, 1]]
    f.Writes "\x7b%1=NAC, %70=-2\x7d" ∧ "\x7b%1=NAC, %70=-2\x7d" = f.text ∧
    (BitSet.bitSets long 0).HoldsSlots ∧ (BitSet.bitSets short 1).HoldsSlots ∧
    (BitSet.bitSets long 0).words.size = 4 ∧ (BitSet.bitSets short 1).words.size = 1 ∧
    (BitSet.bitSets long 0).varsText = (BitSet.bitSets short 1).varsText := by
  intro f long short
  have hwrites : f.Writes "\x7b%1=NAC, %70=-2\x7d" :=
    ⟨f.entries.reverse, f.entries, List.reverse_perm _, (List.reverse_perm _).symm, by decide,
      by decide⟩
  have hslots : ∀ ops r, BitSet.finiteSets ops r = {1} → (BitSet.bitSets ops r).HoldsSlots := by
    intro ops r h i hi
    rw [← BitSet.mem_members, (BitSet.denotes_history ops r).members, h, Finset.mem_singleton] at hi
    omega
  have hlong := hslots long 0 (by decide)
  have hshort := hslots short 1 (by decide)
  obtain ⟨-, hsame, -, -, -, -, hbits⟩ := texts_tell_facts
  exact ⟨hwrites, (hsame f _).mp hwrites, hlong, hshort, by decide, by decide,
    (hbits long short 0 1 hlong hshort).2.2.mpr (by decide)⟩

end FlowFacts
