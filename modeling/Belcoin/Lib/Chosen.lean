import Mathlib.Data.Finset.Max
import Belcoin.Lib.Consensus

/-!
What a majority has held is held for good.

An entry is committed when a majority has kept the log of the leader of its term up to
it, at one time or another in that term. The leaders of later terms have it in their
logs (`Committed.safe`), because a majority that has left the term without it
(`Blocked`) and a majority that has kept it would have a node in common. The proof says
this of every entry, committed or not: a later leader has it, or it is blocked.

The results hold in the runs of the machine whose steps are all `Steady`.
-/

namespace Consensus

universe u v

variable {ι : Type u} {ε : Type v} {termOf : ε → Nat}

namespace History

/-- Entry `k` in the log of the leader of `t` is from `t` itself. -/
def Own (termOf : ε → Nat) (h : History ι ε) (t k : Nat) : Prop :=
  ∃ e, (h.led t)[k]? = some e ∧ termOf e = t

theorem Own.lt {h : History ι ε} {t k : Nat} (own : h.Own termOf t k) : k < (h.led t).length := by
  obtain ⟨e, here, -⟩ := own
  exact (List.getElem?_eq_some_iff.mp here).1

theorem Own.grows {h h' : History ι ε} {t k : Nat} (own : h.Own termOf t k) (grows : h.Grows h') :
    h'.Own termOf t k := by
  obtain ⟨e, here, from'⟩ := own
  obtain ⟨new, whole⟩ := grows.led t
  refine ⟨e, ?_, from'⟩
  rw [← whole, List.getElem?_append_left (List.getElem?_eq_some_iff.mp here).1, here]

variable [Fintype ι]

/-- A majority has left the term without having kept entry `k`. -/
def Blocked (h : History ι ε) (t k : Nat) : Prop :=
  Majority fun i => t < h.term i ∧ h.kept t i ≤ k

/-- `l` has the log of the leader of `t` up to entry `k`, or nobody needs it to. -/
def Covers (h : History ι ε) (t k : Nat) (l : List ε) : Prop :=
  (h.led t).take (k + 1) <+: l ∨ h.Blocked t k

theorem Covers.longer {h : History ι ε} {t k : Nat} {l l' : List ε} (covers : h.Covers t k l)
    (longer : l <+: l') : h.Covers t k l' :=
  covers.imp (fun shorter => shorter.trans longer) id

/-- What holds in the runs of steady nodes. -/
structure Guarded (termOf : ε → Nat) (h : History ι ε) : Prop extends h.Grounded termOf where
  reach : ∀ t i, h.kept t i ≤ (h.led t).length
  now : ∀ t i, 0 < h.kept t i → t ≤ h.term i
  safe : ∀ t t' k, t < t' → h.led t' ≠ [] → h.Own termOf t k → h.Covers t k (h.led t')
  held : ∀ i t k, k < h.kept t i → h.Own termOf t k → h.Covers t k (h.log i)
  cast : ∀ i c t t' k l, h.ballot t' i = some (c, l) → t < t' → k < h.kept t i →
    h.Own termOf t k → h.Covers t k l
  /-- What the leader of a term appends is from the term. -/
  last : ∀ t, h.led t ≠ [] → h.Own termOf t ((h.led t).length - 1)
  /-- What a node copies ends with an entry from the term. -/
  keptOwn : ∀ t i, 0 < h.kept t i → h.Own termOf t (h.kept t i - 1)

/-! ### What a step leaves -/

section Later

variable {h h' : History ι ε} {t k : Nat}

omit [Fintype ι] in
theorem Grows.take (grows : h.Grows h') (old : k < (h.led t).length) :
    (h'.led t).take (k + 1) = (h.led t).take (k + 1) := by
  obtain ⟨new, whole⟩ := grows.led t
  rw [← whole, List.take_append_of_le_length old]

omit [Fintype ι] in
theorem Own.of_grows (own : h'.Own termOf t k) (grows : h.Grows h')
    (old : k < (h.led t).length) : h.Own termOf t k := by
  obtain ⟨e, here, from'⟩ := own
  refine ⟨e, ?_, from'⟩
  obtain ⟨new, whole⟩ := grows.led t
  rwa [← whole, List.getElem?_append_left old] at here

variable [DecidableEq ι] {a : Move ι ε}

omit [Fintype ι] in
/-- What a node kept in a term it has left does not change. -/
theorem after_kept {i : ι} (past : t < h.term i) : (h.after a).kept t i = h.kept t i := by
  cases a with
  | enter j s => rfl
  | vote j c => rfl
  | append c e =>
      change (h.hold c _).kept t i = _
      rw [hold_kept, if_neg]
      rintro ⟨rfl, rfl⟩
      exact lt_irrefl _ past
  | accept j m =>
      change (h.hold j _).kept t i = _
      rw [hold_kept, if_neg]
      rintro ⟨rfl, rfl⟩
      exact lt_irrefl _ past

theorem Blocked.after (blocked : h.Blocked t k) (allowed : h.Allows termOf a) :
    (h.after a).Blocked t k := by
  apply blocked.mono
  rintro i ⟨past, without⟩
  refine ⟨past.trans_le (allowed.grows.term i), ?_⟩
  rw [after_kept past]
  exact without

theorem Covers.after {l : List ε} (covers : h.Covers t k l) (allowed : h.Allows termOf a)
    (old : k < (h.led t).length) : (h.after a).Covers t k l := by
  rcases covers with has | blocked
  · exact .inl (by rwa [allowed.grows.take old])
  · exact .inr (blocked.after allowed)

end Later

/-! ### The winner of an election -/

variable {h : History ι ε}

/-- Of two logs that a candidate may be preferred for, the newer covers what the older
has from a term before its last. -/
theorem Guarded.newer (guarded : h.Guarded termOf) {l l' : List ε} (rooted : h.Rooted termOf l)
    (rooted' : h.Rooted termOf l') (newer : UpToDate termOf l' l) (some : l' ≠ []) {t k : Nat}
    (own : h.Own termOf t k) (has : (h.led t).take (k + 1) <+: l) : h.Covers t k l' := by
  have length : ((h.led t).take (k + 1)).length = k + 1 := by
    have := own.lt
    simp only [List.length_take]
    omega
  have started : l ≠ [] := by
    rintro rfl
    rw [List.prefix_nil.mp has] at length
    cases length
  have whole := rooted.last started
  have whole' := rooted'.last some
  -- the last entry of `l` is no older than `t`
  have late : t ≤ lastTerm termOf l := by
    obtain ⟨e, here, from'⟩ := own
    have mem : e ∈ (h.led t).take (k + 1) :=
      List.mem_iff_getElem?.mpr ⟨k, by rw [List.getElem?_take, if_pos (by omega), here]⟩
    rw [← from']
    exact guarded.ledTerm _ e ((has.trans whole).mem mem)
  rcases newer with later | ⟨same, longer⟩
  · have led : h.led (lastTerm termOf l') ≠ [] := by
      intro empty
      rw [empty] at whole'
      exact some (List.prefix_nil.mp whole')
    rcases guarded.safe t _ k (by omega) led own with before | blocked
    · refine .inl (List.prefix_of_prefix_length_le before whole' ?_)
      -- else the last entry of `l'` were one of the log of the leader of `t`
      by_contra short
      have inside : l' <+: (h.led t).take (k + 1) :=
        List.prefix_of_prefix_length_le whole' before (by omega)
      have last : l'.getLast some ∈ h.led t :=
        List.mem_of_mem_take (inside.mem (List.getLast_mem some))
      have bound := guarded.ledTerm t _ last
      rw [lastTerm, lastTerm, List.getLast?_eq_some_getLast some] at later
      rw [lastTerm] at late
      simp only [Option.map_some, Option.getD_some] at later
      omega
    · exact .inr blocked
  · rw [← same] at whole'
    exact .inl (has.trans (List.prefix_of_prefix_length_le whole whole' longer))

/-- **The winner of an election** has in its log what a majority may have kept. -/
theorem Guarded.wins (guarded : h.Guarded termOf) {c : ι} (elected : h.Elected (h.term c) c)
    (stood : h.ballot (h.term c) c = some (c, h.log c)) {t k : Nat} (earlier : t < h.term c)
    (own : h.Own termOf t k) : h.Covers t k (h.log c) := by
  by_cases keeps : ∃ i, h.Votes (h.term c) c i ∧ k < h.kept t i
  · obtain ⟨i, ⟨l, voted⟩, kept⟩ := keeps
    rcases guarded.cast i c t _ k l voted earlier kept own with has | blocked
    · obtain ⟨l', same, newer⟩ := guarded.supported _ _ _ _ voted
      rw [stood] at same
      cases same
      exact guarded.newer (guarded.casts _ _ _ _ voted) (guarded.logs c) newer (guarded.started c)
        own has
    · exact .inr blocked
  · refine .inr (elected.mono fun i votes => ?_)
    obtain ⟨l, voted⟩ := votes
    refine ⟨earlier.trans_le (guarded.voted _ _ _ _ voted), ?_⟩
    by_contra more
    exact keeps ⟨i, ⟨l, voted⟩, by omega⟩

/-- What nobody has kept of a term is blocked when a later term has a leader. -/
theorem Guarded.blocked (guarded : h.Guarded termOf) {t t' k : Nat} (later : t < t')
    (led : h.led t' ≠ []) (beyond : (h.led t).length ≤ k) : h.Blocked t k := by
  obtain ⟨c, elected⟩ := guarded.elected t' (by omega) led
  refine elected.mono fun i votes => ?_
  obtain ⟨l, voted⟩ := votes
  have := guarded.voted _ _ _ _ voted
  have := guarded.reach t i
  omega

/-! ### Every step -/

theorem Guarded.initial {first : ε} (zero : termOf first = 0) :
    (History.initial first : History ι ε).Guarded termOf where
  toGrounded := .initial zero
  reach t i := by
    by_cases zeroth : t = 0 <;> simp [History.initial, zeroth]
  now t i kept := by
    by_cases zeroth : t = 0
    · simp [zeroth]
    · simp [History.initial, zeroth] at kept
  safe t t' k later led _ := by
    simp [History.initial, show t' ≠ 0 by omega] at led
  held i t k kept _ := by
    by_cases zeroth : t = 0
    · refine .inl ?_
      subst zeroth
      exact List.take_prefix _ _
    · simp [History.initial, zeroth] at kept
  cast i c t t' k l voted := by
    cases voted
  last t led := by
    by_cases zeroth : t = 0
    · subst zeroth
      exact ⟨first, rfl, zero⟩
    · simp [History.initial, zeroth] at led
  keptOwn t i kept := by
    by_cases zeroth : t = 0
    · subst zeroth
      exact ⟨first, rfl, zero⟩
    · simp [History.initial, zeroth] at kept

variable [DecidableEq ι]

theorem Guarded.enter (guarded : h.Guarded termOf) {i : ι} {t : Nat}
    (allowed : h.Allows termOf (.enter i t)) : (h.enter i t).Guarded termOf where
  toGrounded := guarded.toGrounded.after allowed
  reach := guarded.reach
  now s j kept := (guarded.now s j kept).trans (allowed.grows.term j)
  safe s t' k later led own := (guarded.safe s t' k later led own).after allowed own.lt
  held j s k kept own := (guarded.held j s k kept own).after allowed own.lt
  cast j c s t' k l voted later kept own :=
    (guarded.cast j c s t' k l voted later kept own).after allowed own.lt
  last := guarded.last
  keptOwn := guarded.keptOwn

theorem Guarded.vote (guarded : h.Guarded termOf) {i c : ι}
    (allowed : h.Allows termOf (.vote i c)) : (h.vote i c).Guarded termOf where
  toGrounded := guarded.toGrounded.after allowed
  reach := guarded.reach
  now := guarded.now
  safe s t' k later led own := (guarded.safe s t' k later led own).after allowed own.lt
  held j s k kept own := (guarded.held j s k kept own).after allowed own.lt
  cast j d s t' k l voted later kept own := by
    rw [vote_ballot] at voted
    split at voted
    · rename_i here
      obtain ⟨-, rfl⟩ := here
      cases voted
      exact (guarded.held j s k kept own).after allowed own.lt
    · exact (guarded.cast j d s t' k l voted later kept own).after allowed own.lt
  last := guarded.last
  keptOwn := guarded.keptOwn

theorem Guarded.append (guarded : h.Guarded termOf) {c : ι} {e : ε}
    (allowed : h.Allows termOf (.append c e)) : (h.append c e).Guarded termOf := by
  have grows := allowed.grows
  have leads := allowed.1
  have kept_cases : ∀ {t i}, t = h.term c ∧ i = c ∧
      (h.append c e).kept t i = (h.log c).length + 1 ∨ ¬ (t = h.term c ∧ i = c) ∧
        (h.append c e).kept t i = h.kept t i := by
    intro t i
    change _ ∧ _ ∧ (h.hold c _).kept t i = _ ∨ _ ∧ (h.hold c _).kept t i = _
    rw [hold_kept]
    split
    · rename_i here
      exact .inl ⟨here.1, here.2, by simp⟩
    · rename_i elsewhere
      exact .inr ⟨elsewhere, rfl⟩
  have log_longer : ∀ i, h.log i <+: (h.append c e).log i := by
    intro i
    by_cases same : i = c
    · subst same
      simp [History.append, hold]
    · simp [History.append, hold, same]
  refine
    { guarded.toGrounded.after allowed with
      reach := ?_
      now := ?_
      safe := ?_
      held := ?_
      cast := ?_
      last := ?_
      keptOwn := ?_ }
  · intro t i
    rcases kept_cases (t := t) (i := i) with ⟨rfl, -, kept⟩ | ⟨-, kept⟩
    · rw [kept, append_led_self]
      simp
    · rw [kept]
      exact (guarded.reach t i).trans (grows.led t).length_le
  · intro t i some
    change 0 < (h.append c e).kept t i at some
    rcases kept_cases (t := t) (i := i) with ⟨rfl, rfl, -⟩ | ⟨-, kept⟩
    · exact le_rfl
    · rw [kept] at some
      exact guarded.now t i some
  · intro t t' k later led own
    by_cases old : k < (h.led t).length
    · have own' := own.of_grows grows old
      refine Covers.after (a := .append c e) ?_ allowed old
      by_cases same : t' = h.term c
      · subst same
        rw [append_led_self]
        refine Covers.longer ?_ (List.prefix_append _ _)
        rcases leads with ⟨elected, ⟨-, stood⟩ | ⟨some, whole⟩⟩
        · exact guarded.wins elected stood later own'
        · rw [← whole]
          exact guarded.safe t _ k later some own'
      · change (h.append c e).led t' ≠ [] at led
        rw [append_led_ne h c e same] at led ⊢
        exact guarded.safe t t' k later led own'
    · have same : t = h.term c := by
        by_contra other
        have bound : k < ((h.append c e).led t).length := own.lt
        rw [append_led_ne h c e other] at bound
        exact old bound
      change (h.append c e).led t' ≠ [] at led
      rw [append_led_ne h c e (by omega)] at led
      exact .inr ((guarded.blocked later led (by omega)).after allowed)
  · intro i t k kept own
    change k < (h.append c e).kept t i at kept
    rcases kept_cases (t := t) (i := i) with ⟨rfl, rfl, -⟩ | ⟨-, same⟩
    · refine .inl ?_
      rw [append_led_self]
      simpa [History.append, hold] using List.take_prefix (k + 1) (h.log i ++ [e])
    · rw [same] at kept
      have old := kept.trans_le (guarded.reach t i)
      exact ((guarded.held i t k kept (own.of_grows grows old)).after allowed old).longer
        (log_longer i)
  · intro i d t t' k l voted later kept own
    change k < (h.append c e).kept t i at kept
    rcases kept_cases (t := t) (i := i) with ⟨rfl, rfl, -⟩ | ⟨-, same⟩
    · have := guarded.voted t' i d l voted
      omega
    · rw [same] at kept
      have old := kept.trans_le (guarded.reach t i)
      exact (guarded.cast i d t t' k l voted later kept (own.of_grows grows old)).after allowed old
  · intro t led
    change (h.append c e).led t ≠ [] at led
    by_cases same : t = h.term c
    · subst same
      refine ⟨e, ?_, allowed.2⟩
      rw [append_led_self]
      simp
    · rw [append_led_ne h c e same] at led
      have old := guarded.last t led
      rw [← append_led_ne h c e same] at old
      exact old.grows grows
  · intro t i kept
    change 0 < (h.append c e).kept t i at kept
    rcases kept_cases (t := t) (i := i) with ⟨rfl, rfl, same⟩ | ⟨-, same⟩
    · refine ⟨e, ?_, allowed.2⟩
      rw [append_led_self, same]
      simp
    · rw [same] at kept ⊢
      exact (guarded.keptOwn t i kept).grows grows

theorem Guarded.accept (guarded : h.Guarded termOf) {i : ι} {m : Nat}
    (allowed : h.Allows termOf (.accept i m)) (steady : Steady termOf h (.accept i m)) :
    (h.accept i m).Guarded termOf := by
  obtain ⟨some, short⟩ := allowed
  have allowed : h.Allows termOf (.accept i m) := ⟨some, short⟩
  have kept_cases : ∀ {t j}, t = h.term i ∧ j = i ∧ (h.accept i m).kept t j = m ∨
      ¬ (t = h.term i ∧ j = i) ∧ (h.accept i m).kept t j = h.kept t j := by
    intro t j
    change _ ∧ _ ∧ (h.hold i _).kept t j = _ ∨ _ ∧ (h.hold i _).kept t j = _
    rw [hold_kept]
    split
    · rename_i here
      exact .inl ⟨here.1, here.2, by simp [short]⟩
    · rename_i elsewhere
      exact .inr ⟨elsewhere, rfl⟩
  refine
    { guarded.toGrounded.after allowed with
      reach := ?_
      now := ?_
      safe := ?_
      held := ?_
      cast := ?_
      last := ?_
      keptOwn := ?_ }
  · intro t j
    change (h.accept i m).kept t j ≤ (h.led t).length
    rcases kept_cases (t := t) (j := j) with ⟨rfl, -, kept⟩ | ⟨-, kept⟩
    · rw [kept]
      exact short
    · rw [kept]
      exact guarded.reach t j
  · intro t j more
    change 0 < (h.accept i m).kept t j at more
    rcases kept_cases (t := t) (j := j) with ⟨rfl, rfl, -⟩ | ⟨-, kept⟩
    · exact le_rfl
    · rw [kept] at more
      exact guarded.now t j more
  · intro t t' k later led own
    exact (guarded.safe t t' k later led own).after allowed own.lt
  · intro j t k kept own
    refine Covers.after (a := .accept i m) ?_ allowed own.lt
    change k < (h.accept i m).kept t j at kept
    have old : h.Own termOf t k := own
    rcases kept_cases (t := t) (j := j) with ⟨rfl, rfl, more⟩ | ⟨other, same⟩
    · rw [more] at kept
      have copied : (h.accept j m).log j = (h.led (h.term j)).take m := by
        simp [History.accept, hold]
      rw [copied]
      exact .inl (List.take_prefix_take_left (show k + 1 ≤ m from kept))
    · rw [same] at kept
      by_cases here : j = i
      · subst here
        -- `t` is a term before, and what covers it is all before the entry accepted last
        have before : t < h.term j := by
          have := guarded.now t j (by omega)
          have : t ≠ h.term j := fun same => other ⟨same, rfl⟩
          omega
        have led : h.led (h.term j) ≠ [] := List.length_pos_iff.mp (by omega)
        refine (guarded.safe t _ k before led old).imp (fun has => ?_) id
        obtain ⟨-, e, last, from'⟩ := steady
        have inside : k + 1 ≤ m := by
          by_contra beyond
          have length := old.lt
          obtain ⟨more, whole⟩ := has
          rw [← whole, List.getElem?_append_left (by simp only [List.length_take]; omega)] at last
          have := guarded.ledTerm t e (List.mem_of_mem_take (List.mem_of_getElem? last))
          omega
        have shorter : (h.led t).take (k + 1) <+: (h.led (h.term j)).take m :=
          List.prefix_take_iff.mpr ⟨has, by simp only [List.length_take]; omega⟩
        simpa [History.after, History.accept, hold] using shorter
      · have elsewhere : (h.accept i m).log j = h.log j := by
          simp [History.accept, hold, here]
        rw [elsewhere]
        exact guarded.held j t k kept old
  · intro j d t t' k l voted later kept own
    change k < (h.accept i m).kept t j at kept
    rcases kept_cases (t := t) (j := j) with ⟨rfl, rfl, -⟩ | ⟨-, same⟩
    · have := guarded.voted t' j d l voted
      omega
    · rw [same] at kept
      exact (guarded.cast j d t t' k l voted later kept own).after allowed own.lt
  · exact guarded.last
  · intro t j kept
    change 0 < (h.accept i m).kept t j at kept
    change h.Own termOf t ((h.accept i m).kept t j - 1)
    rcases kept_cases (t := t) (j := j) with ⟨rfl, rfl, same⟩ | ⟨-, same⟩
    · rw [same]
      exact steady.2
    · rw [same] at kept ⊢
      exact guarded.keptOwn t j kept

theorem Guarded.after (guarded : h.Guarded termOf) {a : Move ι ε} (allowed : h.Allows termOf a)
    (steady : Steady termOf h a) : (h.after a).Guarded termOf := by
  cases a with
  | enter i t => exact guarded.enter allowed
  | vote i c => exact guarded.vote allowed
  | append c e => exact guarded.append allowed
  | accept i m => exact guarded.accept allowed steady

/-! ### Committed entries -/

omit [DecidableEq ι]

/-- A majority has kept entry `k` of the log of the leader of `t`, and the entry is from
`t` itself. -/
structure Committed (termOf : ε → Nat) (h : History ι ε) (t k : Nat) : Prop where
  kept : Majority fun i => k < h.kept t i
  own : h.Own termOf t k

/-- The list is part of what is committed by term `T`. -/
def Chosen (termOf : ε → Nat) (h : History ι ε) (T : Nat) (l : List ε) : Prop :=
  ∃ t k, t ≤ T ∧ h.Committed termOf t k ∧ l <+: (h.led t).take (k + 1)

/-- **A committed entry** is in the log of every leader of a later term. -/
theorem Committed.safe (guarded : h.Guarded termOf) {t t' k : Nat}
    (committed : h.Committed termOf t k) (later : t < t') (led : h.led t' ≠ []) :
    (h.led t).take (k + 1) <+: h.led t' := by
  rcases guarded.safe t t' k later led committed.own with has | blocked
  · exact has
  · obtain ⟨i, kept, -, without⟩ := committed.kept.meet blocked
    omega

/-- **What is chosen** is in the log of every leader of a term that is no earlier. -/
theorem Chosen.led (guarded : h.Guarded termOf) {T T' : Nat} {l : List ε}
    (chosen : h.Chosen termOf T l) (later : T ≤ T') (led : h.led T' ≠ []) : l <+: h.led T' := by
  obtain ⟨t, k, earlier, committed, part⟩ := chosen
  rcases Nat.lt_or_eq_of_le (earlier.trans later) with before | rfl
  · exact part.trans (committed.safe guarded before led)
  · exact part.trans (List.take_prefix _ _)

/-- **All that is chosen is part of one log.** -/
theorem Chosen.comparable (guarded : h.Guarded termOf) {T T' : Nat} {l l' : List ε}
    (chosen : h.Chosen termOf T l) (chosen' : h.Chosen termOf T' l') : l <+: l' ∨ l' <+: l := by
  obtain ⟨t, k, -, committed, part⟩ := chosen
  obtain ⟨t', k', -, committed', part'⟩ := chosen'
  have led : h.led t ≠ [] := List.length_pos_iff.mp (by have := committed.own.lt; omega)
  have led' : h.led t' ≠ [] := List.length_pos_iff.mp (by have := committed'.own.lt; omega)
  rcases le_total t t' with before | after
  · exact List.prefix_or_prefix_of_prefix
      (Chosen.led guarded ⟨t, k, le_rfl, committed, part⟩ before led')
      (part'.trans (List.take_prefix _ _))
  · exact List.prefix_or_prefix_of_prefix (part.trans (List.take_prefix _ _))
      (Chosen.led guarded ⟨t', k', le_rfl, committed', part'⟩ after led)

theorem Chosen.shorter {T : Nat} {l l' : List ε} (chosen : h.Chosen termOf T l')
    (shorter : l <+: l') : h.Chosen termOf T l := by
  obtain ⟨t, k, earlier, committed, part⟩ := chosen
  exact ⟨t, k, earlier, committed, shorter.trans part⟩

theorem Chosen.mono {T T' : Nat} {l : List ε} (chosen : h.Chosen termOf T l) (later : T ≤ T') :
    h.Chosen termOf T' l := by
  obtain ⟨t, k, earlier, rest⟩ := chosen
  exact ⟨t, k, earlier.trans later, rest⟩

/-- What a majority has kept, own entries or not, is chosen: each of them has kept it up to
an entry of the term. -/
theorem Chosen.of_kept (guarded : h.Guarded termOf) {t m : Nat} (some : 0 < m)
    (kept : Majority fun i => m ≤ h.kept t i) : h.Chosen termOf t ((h.led t).take m) := by
  obtain ⟨quorum, many, all⟩ := kept
  have nonempty : quorum.Nonempty := by
    apply Finset.card_pos.mp
    omega
  obtain ⟨i, mem, least⟩ := quorum.exists_min_image (h.kept t) nonempty
  have enough := all i mem
  refine ⟨t, h.kept t i - 1, le_rfl, ⟨⟨quorum, many, fun j mem' => ?_⟩, ?_⟩, ?_⟩
  · have := least j mem'
    omega
  · exact guarded.keptOwn t i (by omega)
  · exact List.prefix_take_iff.mpr ⟨List.take_prefix _ _, by simp only [List.length_take]; omega⟩

theorem Chosen.initial (i : ι) {first : ε} (zero : termOf first = 0) :
    (History.initial first : History ι ε).Chosen termOf 0 [first] := by
  refine ⟨0, 0, le_rfl, ⟨⟨Finset.univ, ?_, fun _ _ => Nat.zero_lt_one⟩, ⟨first, rfl, zero⟩⟩,
    List.prefix_rfl⟩
  have some : 0 < Fintype.card ι := Fintype.card_pos_iff.mpr ⟨i⟩
  rw [Finset.card_univ]
  omega

/-! ### Later histories -/

/-- Histories in which no node has kept less. -/
structure Extends (h h' : History ι ε) : Prop extends h.Grows h' where
  kept : ∀ t i, h.kept t i ≤ h'.kept t i

omit [Fintype ι] in
theorem Extends.refl (h : History ι ε) : h.Extends h where
  toGrows := .refl h
  kept _ _ := le_rfl

omit [Fintype ι] in
theorem Extends.trans {h' h'' : History ι ε} (first : h.Extends h') (second : h'.Extends h'') :
    h.Extends h'' where
  toGrows := first.toGrows.trans second.toGrows
  kept t i := (first.kept t i).trans (second.kept t i)

/-- **What is chosen stays chosen.** -/
theorem Chosen.extends {h' : History ι ε} (extends' : h.Extends h') {T : Nat} {l : List ε}
    (chosen : h.Chosen termOf T l) : h'.Chosen termOf T l := by
  obtain ⟨t, k, earlier, committed, part⟩ := chosen
  refine ⟨t, k, earlier, ⟨committed.kept.mono fun i more => more.trans_le (extends'.kept t i),
    committed.own.grows extends'.toGrows⟩, ?_⟩
  rwa [extends'.toGrows.take committed.own.lt]

variable [DecidableEq ι]

theorem extends_after {a : Move ι ε} (guarded : h.Guarded termOf) (allowed : h.Allows termOf a)
    (steady : Steady termOf h a) : h.Extends (h.after a) := by
  refine ⟨allowed.grows, fun t i => ?_⟩
  cases a with
  | enter j s => exact le_rfl
  | vote j c => exact le_rfl
  | append c e =>
      change _ ≤ (h.hold c _).kept t i
      rw [hold_kept]
      split
      · rename_i here
        have := guarded.reach t i
        have := allowed.1.part.length_le
        rw [here.1] at *
        simp only [List.length_append, List.length_singleton]
        omega
      · exact le_rfl
  | accept j m =>
      change _ ≤ (h.hold j _).kept t i
      rw [hold_kept]
      split
      · rename_i here
        rw [here.1, here.2, List.length_take, min_eq_left allowed.2]
        exact steady.1
      · exact le_rfl

end History

end Consensus
