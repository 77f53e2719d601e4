import Mathlib.Data.List.Basic

/-! # Reading texts back

A text that is put together from parts tells what its parts are, if each part shows where it ends.
A number ends before the first character that is no digit, a word before a separator that it does
not contain, and a list of lines before the first text that no line begins with.
-/

namespace FlowFacts.Text

/-! ## Where a part ends -/

theorem append_inj_of_ends {P : Char → Prop} {u v r t : List Char} (hu : ∀ c ∈ u, P c)
    (hv : ∀ c ∈ v, P c) (hr : ∀ c ∈ r.head?, ¬ P c) (ht : ∀ c ∈ t.head?, ¬ P c)
    (h : u ++ r = v ++ t) : u = v ∧ r = t := by
  induction u generalizing v with
  | nil =>
    cases v with
    | nil => exact ⟨rfl, h⟩
    | cons c v =>
      rw [List.nil_append] at h
      exact absurd (hv c List.mem_cons_self) (hr c (by simp [h]))
  | cons c u ih =>
    cases v with
    | nil =>
      rw [List.nil_append] at h
      exact absurd (hu c List.mem_cons_self) (ht c (by simp [← h]))
    | cons d v =>
      rw [List.forall_mem_cons] at hu hv
      simp only [List.cons_append, List.cons.injEq] at h
      obtain ⟨rfl, h⟩ := h
      obtain ⟨rfl, hrest⟩ := ih hu.2 hv.2 h
      exact ⟨rfl, hrest⟩

theorem append_inj_of_not_mem {c : Char} {u v r t : List Char} (hu : c ∉ u) (hv : c ∉ v)
    (h : u ++ c :: r = v ++ c :: t) : u = v ∧ r = t := by
  obtain ⟨he, hrest⟩ := append_inj_of_ends (P := (· ≠ c)) (fun d hd he => hu (he ▸ hd))
    (fun d hd he => hv (he ▸ hd)) (by simp) (by simp) h
  exact ⟨he, (List.cons.inj hrest).2⟩

/-! ## Numbers -/

theorem isDigit_of_mem_repr {n : Nat} {c : Char} (h : c ∈ n.repr.toList) : c.isDigit = true := by
  rw [Nat.toList_repr] at h
  exact Nat.isDigit_of_mem_toDigits (by decide) (by decide) h

theorem repr_inj {m n : Nat} (h : m.repr.toList = n.repr.toList) : m = n := by
  rw [Nat.toList_repr, Nat.toList_repr] at h
  have hread := congrArg (Nat.ofDigitChars 10 · 0) h
  rwa [Nat.ofDigitChars_ten_toDigits, Nat.ofDigitChars_ten_toDigits] at hread

theorem repr_append_inj {m n : Nat} {r t : List Char} (hr : ∀ c ∈ r.head?, ¬ c.isDigit = true)
    (ht : ∀ c ∈ t.head?, ¬ c.isDigit = true) (h : m.repr.toList ++ r = n.repr.toList ++ t) :
    m = n ∧ r = t := by
  obtain ⟨he, hrest⟩ := append_inj_of_ends (fun c => isDigit_of_mem_repr)
    (fun c => isDigit_of_mem_repr) hr ht h
  exact ⟨repr_inj he, hrest⟩

theorem repr_append_ne {n : Nat} {r t : List Char} (ht : ∀ c ∈ t.head?, ¬ c.isDigit = true) :
    n.repr.toList ++ r ≠ t := by
  rintro rfl
  cases hn : n.repr.toList with
  | nil => exact Nat.repr_ne_empty (String.toList_injective hn)
  | cons c digits => exact ht c (by simp [hn]) (isDigit_of_mem_repr (n := n) (by simp [hn]))

theorem int_repr_inj {m n : Int} (h : m.repr.toList = n.repr.toList) : m = n := by
  -- Only a negative number has a sign, which is no digit.
  have hsign : ∀ k l : Nat, k.repr.toList ≠ ("-" ++ l.repr).toList := by
    intro k l he
    have hmem : '-' ∈ k.repr.toList := by simp [he]
    exact absurd (isDigit_of_mem_repr hmem) (by decide)
  rw [Int.repr_eq_if, Int.repr_eq_if] at h
  split at h <;> split at h
  · have hnat := repr_inj h
    omega
  · exact absurd h (hsign _ _)
  · exact absurd h.symm (hsign _ _)
  · rw [String.toList_append, String.toList_append, List.append_cancel_left_eq] at h
    have hnat := repr_inj h
    omega

theorem mem_int_repr {n : Int} {c : Char} (h : c ∈ n.repr.toList) : c = '-' ∨ c.isDigit = true := by
  rw [Int.repr_eq_if] at h
  split at h
  · exact Or.inr (isDigit_of_mem_repr h)
  · rw [String.toList_append, List.mem_append] at h
    rcases h with h | h
    · exact Or.inl (by simpa using h)
    · exact Or.inr (isDigit_of_mem_repr h)

theorem int_repr_ne {n : Int} {text : String}
    (h : text.toList.all (fun c => c == '-' || c.isDigit) = false) : n.repr ≠ text := by
  rintro rfl
  rw [List.all_eq_false] at h
  obtain ⟨c, hc, hnot⟩ := h
  exact hnot (by simpa using mem_int_repr hc)

/-! ## Lists -/

theorem prefixed_inj {c : Char} {sep : List Char} {l m : List (List Char)} (hl : ∀ x ∈ l, c ∉ x)
    (hm : ∀ x ∈ m, c ∉ x) (h : l.flatMap (c :: sep ++ ·) = m.flatMap (c :: sep ++ ·)) : l = m := by
  have hhead : ∀ l : List (List Char), ∀ d ∈ (l.flatMap (c :: sep ++ ·)).head?, ¬ d ≠ c := by
    intro l
    cases l <;> simp
  induction l generalizing m with
  | nil =>
    cases m with
    | nil => rfl
    | cons y m => simp at h
  | cons x l ih =>
    cases m with
    | nil => simp at h
    | cons y m =>
      rw [List.forall_mem_cons] at hl hm
      simp only [List.flatMap_cons, List.append_assoc] at h
      obtain ⟨rfl, hrest⟩ := append_inj_of_ends (P := (· ≠ c)) (fun d hd he => hl.1 (he ▸ hd))
        (fun d hd he => hm.1 (he ▸ hd)) (hhead l) (hhead m) (List.append_cancel_left h)
      rw [ih hl.2 hm.2 hrest]

theorem append_intercalate {sep : List Char} {l : List (List Char)} (h : l ≠ []) :
    sep ++ sep.intercalate l = l.flatMap (sep ++ ·) := by
  induction l with
  | nil => exact absurd rfl h
  | cons x l ih =>
    cases l with
    | nil => simp
    | cons y l =>
      rw [List.intercalate_cons_cons, List.flatMap_cons, ← ih (List.cons_ne_nil y l)]
      simp only [List.append_assoc]

theorem intercalate_inj {c : Char} {sep : List Char} {l m : List (List Char)}
    (hl : ∀ x ∈ l, x ≠ [] ∧ c ∉ x) (hm : ∀ x ∈ m, x ≠ [] ∧ c ∉ x)
    (h : (c :: sep).intercalate l = (c :: sep).intercalate m) : l = m := by
  -- No words and one empty word would give the same text.
  have hnil : ∀ l : List (List Char), (∀ x ∈ l, x ≠ [] ∧ c ∉ x) →
      ((c :: sep).intercalate l = [] ↔ l = []) := by
    intro l hl
    constructor
    · intro he
      cases l with
      | nil => rfl
      | cons x l =>
        cases l with
        | nil => exact absurd (by simpa using he) (hl x List.mem_cons_self).1
        | cons y l => simp at he
    · rintro rfl
      rfl
  by_cases hempty : l = []
  · rw [hempty, List.intercalate_nil] at h
    rw [hempty, (hnil m hm).mp h.symm]
  · have hempty' : m ≠ [] := fun he => hempty ((hnil l hl).mp (h.trans ((hnil m hm).mpr he)))
    apply prefixed_inj (fun x hx => (hl x hx).2) (fun x hx => (hm x hx).2)
    rw [← append_intercalate hempty, ← append_intercalate hempty', h]

theorem bracketed_inj {α : Type} {word : α → String} (hinj : Function.Injective word)
    (hword : ∀ a, (word a).toList ≠ [] ∧ ',' ∉ (word a).toList) {left right : String} {l m : List α}
    (h : left ++ ", ".intercalate (l.map word) ++ right =
      left ++ ", ".intercalate (m.map word) ++ right) : l = m := by
  have hwords : ∀ l : List α, ∀ x ∈ (l.map word).map String.toList, x ≠ [] ∧ ',' ∉ x := by
    intro l x hx
    simp only [List.map_map, List.mem_map, Function.comp] at hx
    obtain ⟨a, -, rfl⟩ := hx
    exact hword a
  have hlist := congrArg String.toList h
  simp only [String.toList_append, List.append_cancel_left_eq, List.append_cancel_right_eq,
    String.toList_intercalate] at hlist
  have hmap := intercalate_inj (hwords l) (hwords m) hlist
  exact hinj.list_map (List.map_injective_iff.mpr (fun _ _ => String.toList_injective) hmap)

theorem flatMap_append_inj {α β : Type} {line line' : α → List Char} (shown shown' : α → β)
    {r t : List Char}
    (hline : ∀ a b u v, line a ++ u = line' b ++ v → shown a = shown' b ∧ u = v)
    (hr : ∀ b v, r ≠ line' b ++ v) (ht : ∀ a u, line a ++ u ≠ t) {l m : List α}
    (h : l.flatMap line ++ r = m.flatMap line' ++ t) : l.map shown = m.map shown' ∧ r = t := by
  induction l generalizing m with
  | nil =>
    cases m with
    | nil => exact ⟨rfl, h⟩
    | cons b m =>
      rw [List.flatMap_cons, List.append_assoc] at h
      exact absurd h (hr b _)
  | cons a l ih =>
    rw [List.flatMap_cons, List.append_assoc] at h
    cases m with
    | nil => exact absurd h (ht a _)
    | cons b m =>
      rw [List.flatMap_cons, List.append_assoc] at h
      obtain ⟨hshown, hrest⟩ := hline a b _ _ h
      obtain ⟨htail, hend⟩ := ih hrest
      exact ⟨by rw [List.map_cons, List.map_cons, hshown, htail], hend⟩

end FlowFacts.Text
