import Mathlib.Data.Fintype.Card
import Mathlib.Data.List.Infix
import Mathlib.Logic.Function.Basic
import Belcoin.Lib.Machine

/-!
Replicated logs with elections, told by their history.

The state is what an observer writes down: the term and the log of every node, who
voted for whom in which term and with which log, the log of the leader of each term,
and how much of it each node held last in that term. `Consensus.machine` says what the
nodes of a protocol with majority votes and copied logs may do to it.

* `Elected.unique` — a term has one winner.
* `Grounded.after` — in every run, every log is rooted: up to an entry of a term it is the
  log of the leader of the term.
* `Rooted.matching` — two logs with entries of one term at one position agree up to it.
-/

universe u v

/-! ### Majorities -/

/-- More than half of all nodes. -/
def Majority {ι : Type u} [Fintype ι] (p : ι → Prop) : Prop :=
  ∃ quorum : Finset ι, Fintype.card ι < 2 * quorum.card ∧ ∀ i ∈ quorum, p i

namespace Majority

variable {ι : Type u} [Fintype ι] {p q : ι → Prop}

theorem mono (majority : Majority p) (weaker : ∀ i, p i → q i) : Majority q := by
  obtain ⟨quorum, many, all⟩ := majority
  exact ⟨quorum, many, fun i mem => weaker i (all i mem)⟩

/-- Two majorities have a node in common. -/
theorem meet (first : Majority p) (second : Majority q) : ∃ i, p i ∧ q i := by
  classical
  obtain ⟨s, manyS, allS⟩ := first
  obtain ⟨t, manyT, allT⟩ := second
  by_contra apart
  have disjoint : Disjoint s t := by
    apply Finset.disjoint_left.mpr
    intro i memS memT
    exact apart ⟨i, allS i memS, allT i memT⟩
  have total : (s ∪ t).card ≤ Fintype.card ι := Finset.card_le_univ _
  rw [Finset.card_union_of_disjoint disjoint] at total
  omega

end Majority

namespace Consensus

/-! ### The history -/

variable {ι : Type u} {ε : Type v}

/-- What the nodes `ι` did so far with their logs of entries `ε`. -/
structure History (ι : Type u) (ε : Type v) where
  term : ι → Nat
  log : ι → List ε
  /-- By term and voter: the candidate, and the voter's log when it voted. -/
  ballot : Nat → ι → Option (ι × List ε)
  /-- The log of the leader of a term. -/
  led : Nat → List ε
  /-- How many entries of that log a node held last. -/
  kept : Nat → ι → Nat

namespace History

/-- `i` voted for `c` in term `t`. -/
def Votes (h : History ι ε) (t : Nat) (c i : ι) : Prop :=
  ∃ l, h.ballot t i = some (c, l)

/-- `c` has the votes of a majority in term `t`. -/
def Elected [Fintype ι] (h : History ι ε) (t : Nat) (c : ι) : Prop :=
  Majority (h.Votes t c)

theorem Elected.unique [Fintype ι] {h : History ι ε} {t : Nat} {c d : ι} (first : h.Elected t c)
    (second : h.Elected t d) : c = d := by
  obtain ⟨i, ⟨l, forC⟩, ⟨l', forD⟩⟩ := Majority.meet first second
  rw [forC] at forD
  cases forD
  rfl

/-- Later histories. -/
structure Grows (h h' : History ι ε) : Prop where
  term : ∀ i, h.term i ≤ h'.term i
  ballot : ∀ t i b, h.ballot t i = some b → h'.ballot t i = some b
  led : ∀ t, h.led t <+: h'.led t

theorem Grows.refl (h : History ι ε) : h.Grows h where
  term _ := le_rfl
  ballot _ _ _ cast := cast
  led _ := List.prefix_rfl

theorem Grows.trans {h h' h'' : History ι ε} (first : h.Grows h') (second : h'.Grows h'') :
    h.Grows h'' where
  term i := (first.term i).trans (second.term i)
  ballot t i b cast := second.ballot t i b (first.ballot t i b cast)
  led t := (first.led t).trans (second.led t)

theorem Votes.grows {h h' : History ι ε} (grows : h.Grows h') {t : Nat} {c i : ι}
    (votes : h.Votes t c i) : h'.Votes t c i := by
  obtain ⟨l, cast⟩ := votes
  exact ⟨l, grows.ballot _ _ _ cast⟩

theorem Elected.grows [Fintype ι] {h h' : History ι ε} (grows : h.Grows h') {t : Nat} {c : ι}
    (elected : h.Elected t c) : h'.Elected t c :=
  Majority.mono elected fun _ => Votes.grows grows

variable [DecidableEq ι]

/-- `i` enters a term. -/
def enter (h : History ι ε) (i : ι) (t : Nat) : History ι ε :=
  { h with term := Function.update h.term i t }

/-- `i` votes for `c` in its term. -/
def vote (h : History ι ε) (i c : ι) : History ι ε :=
  { h with
    ballot := Function.update h.ballot (h.term i)
      (Function.update (h.ballot (h.term i)) i (some (c, h.log i))) }

/-- `i` holds the log `l` and has kept as much of the log of its leader. -/
def hold (h : History ι ε) (i : ι) (l : List ε) : History ι ε :=
  { h with
    log := Function.update h.log i l
    kept := Function.update h.kept (h.term i)
      (Function.update (h.kept (h.term i)) i l.length) }

/-- `c` appends an entry to its log, as the leader of its term. -/
def append (h : History ι ε) (c : ι) (e : ε) : History ι ε :=
  { h.hold c (h.log c ++ [e]) with
    led := Function.update h.led (h.term c) (h.log c ++ [e]) }

/-- `i` copies the first `m` entries of the log of the leader of its term. -/
def accept (h : History ι ε) (i : ι) (m : Nat) : History ι ε :=
  h.hold i ((h.led (h.term i)).take m)

theorem enter_grows {h : History ι ε} {i : ι} {t : Nat} (later : h.term i ≤ t) :
    h.Grows (h.enter i t) where
  term j := by
    by_cases same : j = i
    · subst same
      simpa [enter] using later
    · simp [enter, same]
  ballot _ _ _ cast := cast
  led _ := List.prefix_rfl

theorem vote_ballot (h : History ι ε) (i c : ι) (t : Nat) (j : ι) :
    (h.vote i c).ballot t j =
      if t = h.term i ∧ j = i then some (c, h.log i) else h.ballot t j := by
  by_cases sameTerm : t = h.term i
  · subst sameTerm
    by_cases same : j = i
    · subst same
      simp [vote]
    · simp [vote, same]
  · simp [vote, sameTerm]

theorem vote_grows {h : History ι ε} {i c : ι} (unvoted : h.ballot (h.term i) i = none) :
    h.Grows (h.vote i c) where
  term _ := le_rfl
  ballot t j b cast := by
    rw [vote_ballot, if_neg]
    · exact cast
    · rintro ⟨rfl, rfl⟩
      rw [unvoted] at cast
      cases cast
  led _ := List.prefix_rfl

theorem hold_grows (h : History ι ε) (i : ι) (l : List ε) : h.Grows (h.hold i l) where
  term _ := le_rfl
  ballot _ _ _ cast := cast
  led _ := List.prefix_rfl

theorem hold_kept (h : History ι ε) (i : ι) (l : List ε) (t : Nat) (j : ι) :
    (h.hold i l).kept t j = if t = h.term i ∧ j = i then l.length else h.kept t j := by
  by_cases sameTerm : t = h.term i
  · subst sameTerm
    by_cases same : j = i
    · subst same
      simp [hold]
    · simp [hold, same]
  · simp [hold, sameTerm]

theorem append_led_self (h : History ι ε) (c : ι) (e : ε) :
    (h.append c e).led (h.term c) = h.log c ++ [e] := by
  simp [append]

theorem append_led_ne (h : History ι ε) (c : ι) (e : ε) {t : Nat} (other : t ≠ h.term c) :
    (h.append c e).led t = h.led t := by
  simp [append, other]

theorem append_log_self (h : History ι ε) (c : ι) (e : ε) :
    (h.append c e).log c = h.log c ++ [e] := by
  simp [append, hold]

theorem append_grows {h : History ι ε} {c : ι} {e : ε} (leads : h.led (h.term c) <+: h.log c) :
    h.Grows (h.append c e) where
  term _ := le_rfl
  ballot _ _ _ cast := cast
  led t := by
    by_cases same : t = h.term c
    · subst same
      rw [append_led_self]
      exact leads.trans (List.prefix_append _ _)
    · rw [append_led_ne h c e same]

end History

/-! ### The machine -/

/-- What a node may do. -/
inductive Move (ι : Type u) (ε : Type v) where
  | enter (i : ι) (t : Nat)
  | vote (i c : ι)
  | append (c : ι) (e : ε)
  | accept (i : ι) (m : Nat)

section Machine

variable (termOf : ε → Nat)

/-- The term of the last entry. -/
def lastTerm (l : List ε) : Nat :=
  (l.getLast?.map termOf).getD 0

/-- `l` is no older than `l'`. -/
def UpToDate (l l' : List ε) : Prop :=
  lastTerm termOf l' < lastTerm termOf l ∨
    lastTerm termOf l' = lastTerm termOf l ∧ l'.length ≤ l.length

/-- `c` has just won its term, and its log is still the one it stood for election with,
or it has led its term before. -/
def History.Leads [Fintype ι] (h : History ι ε) (c : ι) : Prop :=
  h.Elected (h.term c) c ∧
    (h.led (h.term c) = [] ∧ h.ballot (h.term c) c = some (c, h.log c) ∨
      h.led (h.term c) ≠ [] ∧ h.led (h.term c) = h.log c)

/-- When it may do it. -/
def History.Allows [Fintype ι] (h : History ι ε) : Move ι ε → Prop
  | .enter i t => h.term i ≤ t
  | .vote i c => h.ballot (h.term i) i = none ∧
      (c = i ∨ ∃ l, h.ballot (h.term i) c = some (c, l) ∧ UpToDate termOf l (h.log i))
  | .append c e => h.Leads c ∧ termOf e = h.term c
  | .accept i m => 0 < m ∧ m ≤ (h.led (h.term i)).length

/-- What it does. -/
def History.after [DecidableEq ι] (h : History ι ε) : Move ι ε → History ι ε
  | .enter i t => h.enter i t
  | .vote i c => h.vote i c
  | .append c e => h.append c e
  | .accept i m => h.accept i m

/-- All nodes start in term 0 with the same entry. -/
def History.initial (first : ε) : History ι ε where
  term _ := 0
  log _ := [first]
  ballot _ _ := none
  led t := if t = 0 then [first] else []
  kept t _ := if t = 0 then 1 else 0

/-- The histories of a protocol whose first entry is `first`. -/
def machine (ι : Type u) [Fintype ι] [DecidableEq ι] (first : ε) :
    Machine (History ι ε) (Move ι ε) where
  start h := h = .initial first
  step h a h' := h.Allows termOf a ∧ h' = h.after a

/-- A node that copies in a term copies at least what it copied before, and up to an
entry of that term. -/
def Steady (h : History ι ε) : Move ι ε → Prop
  | .accept i m => h.kept (h.term i) i ≤ m ∧
      ∃ e, (h.led (h.term i))[m - 1]? = some e ∧ termOf e = h.term i
  | _ => True

end Machine

/-! ### Logs match -/

variable {termOf : ε → Nat}

/-- Up to an entry of a term, the log is that of the leader of the term. -/
def History.Rooted (termOf : ε → Nat) (h : History ι ε) (l : List ε) : Prop :=
  ∀ k e, l[k]? = some e → l.take (k + 1) <+: h.led (termOf e)

/-- Rooted logs that have entries of one term at one position agree up to it. -/
theorem History.Rooted.matching {h : History ι ε} {l l' : List ε} (rooted : h.Rooted termOf l)
    (rooted' : h.Rooted termOf l') {k : Nat} {e e' : ε} (here : l[k]? = some e)
    (there : l'[k]? = some e') (same : termOf e = termOf e') : l.take (k + 1) = l'.take (k + 1) := by
  have first := rooted k e here
  have second := rooted' k e' there
  rw [← same] at second
  have long : k < l.length := (List.getElem?_eq_some_iff.mp here).1
  have long' : k < l'.length := (List.getElem?_eq_some_iff.mp there).1
  apply List.IsPrefix.eq_of_length (List.prefix_of_prefix_length_le first second _)
  all_goals simp only [List.length_take]; omega

theorem History.Rooted.grows {h h' : History ι ε} (grows : h.Grows h') {l : List ε}
    (rooted : h.Rooted termOf l) : h'.Rooted termOf l :=
  fun k e here => (rooted k e here).trans (grows.led _)

theorem History.Rooted.take {h : History ι ε} {l : List ε} (rooted : h.Rooted termOf l) (m : Nat) :
    h.Rooted termOf (l.take m) := by
  intro k e here
  rw [List.getElem?_take] at here
  split at here
  · rename_i short
    rw [List.take_take, min_eq_left (by omega)]
    exact rooted k e here
  · cases here

/-- The log up to its last entry is that of the leader of the last entry's term. -/
theorem History.Rooted.last {h : History ι ε} {l : List ε} (rooted : h.Rooted termOf l)
    (some : l ≠ []) : l <+: h.led (lastTerm termOf l) := by
  have long := List.length_pos_iff.mpr some
  have here : l[l.length - 1]? = .some (l.getLast some) := by
    rw [← List.getLast?_eq_getElem?, List.getLast?_eq_some_getLast some]
  have whole := rooted _ _ here
  rw [List.take_of_length_le (by omega)] at whole
  rw [lastTerm, List.getLast?_eq_some_getLast some]
  exact whole

/-- An entry of a rooted log is one of the log of the leader of its term. -/
theorem History.Rooted.mem {h : History ι ε} {l : List ε} (rooted : h.Rooted termOf l) {e : ε}
    (mem : e ∈ l) : e ∈ h.led (termOf e) := by
  obtain ⟨k, here⟩ := List.mem_iff_getElem?.mp mem
  refine (rooted k e here).mem (List.mem_iff_getElem?.mpr ⟨k, ?_⟩)
  rw [List.getElem?_take, if_pos (Nat.lt_succ_self k), here]

theorem UpToDate.refl (l : List ε) : UpToDate termOf l l :=
  .inr ⟨rfl, le_rfl⟩

variable [Fintype ι]

/-- What holds in every run: logs, the leaders' and those that nodes voted with match,
and their terms are not ahead of the nodes'. -/
structure History.Grounded (termOf : ε → Nat) (h : History ι ε) : Prop where
  logs : ∀ i, h.Rooted termOf (h.log i)
  leds : ∀ t, h.Rooted termOf (h.led t)
  casts : ∀ t i c l, h.ballot t i = some (c, l) → h.Rooted termOf l
  voted : ∀ t i c l, h.ballot t i = some (c, l) → t ≤ h.term i
  supported : ∀ t i c l, h.ballot t i = some (c, l) →
    ∃ l', h.ballot t c = some (c, l') ∧ UpToDate termOf l' l
  elected : ∀ t, 0 < t → h.led t ≠ [] → ∃ c, h.Elected t c
  logTerm : ∀ i, ∀ e ∈ h.log i, termOf e ≤ h.term i
  ledTerm : ∀ t, ∀ e ∈ h.led t, termOf e ≤ t
  started : ∀ i, h.log i ≠ []
  castStarted : ∀ t i c l, h.ballot t i = some (c, l) → l ≠ []

namespace History

theorem Leads.part {h : History ι ε} {c : ι} (leads : h.Leads c) :
    h.led (h.term c) <+: h.log c := by
  obtain ⟨-, ⟨unled, -⟩ | ⟨-, same⟩⟩ := leads
  · rw [unled]
    exact List.nil_prefix
  · rw [same]

theorem Grounded.initial {first : ε} (zero : termOf first = 0) :
    (History.initial first : History ι ε).Grounded termOf := by
  have rooted : (History.initial first : History ι ε).Rooted termOf [first] := by
    intro k e here
    obtain ⟨rfl, rfl⟩ : k = 0 ∧ first = e := by
      cases k with
      | zero => exact ⟨rfl, by simpa using here⟩
      | succ k => simp at here
    rw [zero]
    exact List.prefix_rfl
  constructor
  · exact fun _ => rooted
  · intro t
    by_cases zeroth : t = 0
    · simpa [History.initial, zeroth] using rooted
    · intro k e here
      simp [History.initial, zeroth] at here
  · intro t i c l cast
    cases cast
  · intro t i c l cast
    cases cast
  · intro t i c l cast
    cases cast
  · intro t late some
    exact absurd (if_neg (by omega)) some
  · intro i e mem
    rw [List.mem_singleton.mp mem, zero]
    exact Nat.zero_le _
  · intro t e mem
    by_cases zeroth : t = 0
    · have only : e ∈ [first] := by simpa [History.initial, zeroth] using mem
      rw [List.mem_singleton.mp only, zero]
      exact Nat.zero_le _
    · simp [History.initial, zeroth] at mem
  · exact fun _ => List.cons_ne_nil _ _
  · intro t i c l cast
    cases cast

variable [DecidableEq ι]

/-- Every move makes the history grow. -/
theorem Allows.grows {h : History ι ε} {a : Move ι ε} (allowed : h.Allows termOf a) :
    h.Grows (h.after a) := by
  cases a with
  | enter i t => exact enter_grows allowed
  | vote i c => exact vote_grows allowed.1
  | append c e => exact append_grows allowed.1.part
  | accept i m => exact hold_grows h i _

/-- An entry that the leader of its term appends. -/
theorem Grounded.rooted_append {h : History ι ε} (grounded : h.Grounded termOf) {c : ι} {e : ε}
    (leads : h.Leads c) (own : termOf e = h.term c) :
    (h.append c e).Rooted termOf (h.log c ++ [e]) := by
  intro k e' here
  by_cases old : k < (h.log c).length
  · rw [List.getElem?_append_left old] at here
    rw [List.take_append_of_le_length (by omega)]
    exact (grounded.logs c).grows (append_grows leads.part) k e' here
  · rw [List.getElem?_append_right (by omega)] at here
    obtain ⟨rfl, last⟩ : e = e' ∧ k = (h.log c).length := by
      cases rest : k - (h.log c).length with
      | zero =>
          rw [rest] at here
          exact ⟨by simpa using here, by omega⟩
      | succ n =>
          rw [rest] at here
          simp at here
    rw [own, append_led_self, List.take_of_length_le (by simp [last])]

theorem Grounded.after {h : History ι ε} {a : Move ι ε} (grounded : h.Grounded termOf)
    (allowed : h.Allows termOf a) : (h.after a).Grounded termOf := by
  have grows := allowed.grows
  have casts := fun t i c l cast => (grounded.casts t i c l cast).grows grows
  have leds := fun t => (grounded.leds t).grows grows
  have logs := fun i => (grounded.logs i).grows grows
  have elected : ∀ t, 0 < t → h.led t ≠ [] → ∃ c, (h.after a).Elected t c := by
    intro t late some
    obtain ⟨c, won⟩ := grounded.elected t late some
    exact ⟨c, won.grows grows⟩
  cases a with
  | enter i t =>
      exact { grounded with
        logs, leds, casts, elected
        voted := fun t j c l cast => (grounded.voted t j c l cast).trans (grows.term j)
        logTerm := fun j e mem => (grounded.logTerm j e mem).trans (grows.term j) }
  | vote i c =>
      obtain ⟨unvoted, wanted⟩ := allowed
      have cast_cases : ∀ {t j d l}, (h.vote i c).ballot t j = some (d, l) →
          t = h.term i ∧ j = i ∧ d = c ∧ l = h.log i ∨ h.ballot t j = some (d, l) := by
        intro t j d l cast
        rw [vote_ballot] at cast
        split at cast
        · rename_i here
          cases cast
          exact .inl ⟨here.1, here.2, rfl, rfl⟩
        · exact .inr cast
      refine { grounded with
        logs, leds, elected
        casts := ?_
        voted := ?_
        supported := ?_
        castStarted := ?_ }
      · intro t j d l cast
        rcases cast_cases cast with ⟨rfl, rfl, rfl, rfl⟩ | old
        · exact logs j
        · exact casts t j d l old
      · intro t j d l cast
        rcases cast_cases cast with ⟨rfl, rfl, -, -⟩ | old
        · exact le_rfl
        · exact grounded.voted t j d l old
      · intro t j d l cast
        rcases cast_cases cast with ⟨rfl, rfl, rfl, rfl⟩ | old
        · rcases wanted with rfl | ⟨l', own, newer⟩
          · exact ⟨_, cast, UpToDate.refl _⟩
          · exact ⟨l', grows.ballot _ _ _ own, newer⟩
        · obtain ⟨l', own, newer⟩ := grounded.supported t j d l old
          exact ⟨l', grows.ballot _ _ _ own, newer⟩
      · intro t j d l cast
        rcases cast_cases cast with ⟨-, -, -, rfl⟩ | old
        · exact grounded.started i
        · exact grounded.castStarted t j d l old
  | append c e =>
      obtain ⟨leads, own⟩ := allowed
      have fresh := grounded.rooted_append leads own
      have below : ∀ e' ∈ h.log c ++ [e], termOf e' ≤ h.term c := by
        intro e' mem
        rcases List.mem_append.mp mem with old | new
        · exact grounded.logTerm c e' old
        · rw [List.mem_singleton.mp new, own]
      refine { grounded with
        casts
        logs := ?_
        leds := ?_
        elected := ?_
        logTerm := ?_
        ledTerm := ?_
        started := ?_ }
      · intro i
        by_cases same : i = c
        · subst same
          simpa [History.after, append, hold] using fresh
        · simpa [History.after, append, hold, same] using logs i
      · intro t
        by_cases same : t = h.term c
        · subst same
          rw [History.after, append_led_self]
          exact fresh
        · simpa [History.after, append_led_ne h c e same] using leds t
      · intro t late some
        by_cases same : t = h.term c
        · subst same
          exact ⟨c, leads.1.grows grows⟩
        · rw [History.after, append_led_ne h c e same] at some
          exact elected t late some
      · intro i e' mem
        by_cases same : i = c
        · subst same
          simp only [History.after, append, hold, Function.update_self] at mem
          exact below e' mem
        · simp only [History.after, append, hold, Function.update_of_ne same] at mem
          exact grounded.logTerm i e' mem
      · intro t e' mem
        by_cases same : t = h.term c
        · subst same
          rw [History.after, append_led_self] at mem
          exact below e' mem
        · rw [History.after, append_led_ne h c e same] at mem
          exact grounded.ledTerm t e' mem
      · intro i
        by_cases same : i = c
        · subst same
          simp [History.after, append, hold]
        · simpa [History.after, append, hold, same] using grounded.started i
  | accept i m =>
      refine { grounded with
        leds, casts, elected
        logs := ?_
        logTerm := ?_
        started := ?_ }
      · intro j
        by_cases same : j = i
        · subst same
          simpa [History.after, accept, hold] using (leds (h.term j)).take m
        · simpa [History.after, accept, hold, same] using logs j
      · intro j e mem
        by_cases same : j = i
        · subst same
          simp only [History.after, accept, hold, Function.update_self] at mem
          exact grounded.ledTerm _ e (List.mem_of_mem_take mem)
        · simp only [History.after, accept, hold, Function.update_of_ne same] at mem
          exact grounded.logTerm j e mem
      · intro j
        by_cases same : j = i
        · subst same
          have some : 0 < ((h.led (h.term j)).take m).length := by
            have := allowed.1
            have := allowed.2
            rw [List.length_take]
            omega
          simpa [History.after, accept, hold] using List.length_pos_iff.mp some
        · simpa [History.after, accept, hold, same] using grounded.started j

end History

/-- A run makes the history grow. -/
theorem run_grows [DecidableEq ι] {first : ε} {h h' : History ι ε} {as : List (Move ι ε)}
    (run : (machine termOf ι first).Run h as h') : h.Grows h' := by
  induction run with
  | nil h => exact .refl h
  | cons moves _ ih =>
      obtain ⟨allowed, rfl⟩ := moves
      exact allowed.grows.trans ih

/-- What leaders append is all that their logs come to hold. -/
theorem run_led [DecidableEq ι] {first : ε} {h h' : History ι ε} {as : List (Move ι ε)}
    (grounded : h.Grounded termOf) (run : (machine termOf ι first).Run h as h') {P : ε → Prop}
    (old : ∀ t, ∀ e ∈ h.led t, P e) (new : ∀ c e, .append c e ∈ as → P e) :
    ∀ t, ∀ e ∈ h'.led t, P e := by
  induction run with
  | nil => exact old
  | @cons h₁ h₂ h₃ a as moves _ ih =>
      obtain ⟨allowed, rfl⟩ := moves
      refine ih (grounded.after allowed) ?_ fun c e mem => new c e (List.mem_cons_of_mem _ mem)
      cases a with
      | append c e =>
          intro t e' mem
          by_cases same : t = h₁.term c
          · subst same
            rw [History.after, History.append_led_self] at mem
            rcases List.mem_append.mp mem with before | last
            · exact old _ e' ((grounded.logs c).mem before)
            · rw [List.mem_singleton.mp last]
              exact new c e List.mem_cons_self
          · rw [History.after, History.append_led_ne h₁ c e same] at mem
            exact old t e' mem
      | _ => exact old

end Consensus
