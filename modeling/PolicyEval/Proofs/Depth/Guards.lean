import Mathlib.Algebra.Group.Nat.Defs
import Mathlib.Data.Finset.Card
import Mathlib.Order.Bounds.Basic
import PolicyEval.Proofs.Eval.Outcome

/-!
# Depth counters and the guards that hold their levels

Whoever enters a level of a depth counter holds a guard of that level and leaves the level by giving
the guard back.  An evaluation gives its guards back in the reverse order, but the counter does not
know which guard it gets, and its numbers fit the guards in any order.  A counter in 64-bit words
stays at the last word where `Depth` goes on; as long as there are fewer guards than words, the two
are the same.

* `WordDepth`, `WordDepth.enter`, `WordDepth.leave` — a depth counter in 64-bit words.
* `Gate`, `Depth.gate`, `WordDepth.gate` — what the guards see of a counter.
* `Gate.Holding`, `Gate.step`, `Gate.after` — the guards alive while levels are entered and left.
* `Depth.Balances`, `Depth.Balances.step`, `Depth.balances_after` — the depth is the number of
  guards.
* `Gate.depths`, `Depth.isGreatest_deepest` — the deepest level is the greatest depth so far.
* `WordDepth.map_after` — words and natural numbers count alike.
* `WordDepth.depth_counts_guards` — the depth, its limit and its highest level after any acts.
-/

namespace PolicyEval

/-! ## Counters in words -/

/-- A depth counter in 64-bit words: the present nesting and the deepest one so far. -/
structure WordDepth where
  current : UInt64
  deepest : UInt64
deriving DecidableEq

namespace WordDepth

/-- The counter before anything was entered. -/
def zero : WordDepth := ⟨0, 0⟩

/-- The word behind a word; the last word stays. -/
def up (n : UInt64) : UInt64 := .ofNat (min (n.toNat + 1) (UInt64.size - 1))

/-- The word before a word; zero stays. -/
def down (n : UInt64) : UInt64 := .ofNat (n.toNat - 1)

/-- The counter one level deeper. -/
def deeper (w : WordDepth) : WordDepth where
  current := up w.current
  deepest := if w.deepest < up w.current then up w.current else w.deepest

/-- Enters a level unless the limit is reached; the error is that limit. -/
def enter (limit : Option UInt64) (w : WordDepth) : Except UInt64 Unit × WordDepth :=
  match limit with
  | some n => if n ≤ w.current then (.error n, w) else (.ok (), w.deeper)
  | none => (.ok (), w.deeper)

/-- Leaves a level. -/
def leave (w : WordDepth) : WordDepth := { w with current := down w.current }

/-- The numbers that the words stand for. -/
def depth (w : WordDepth) : Depth := ⟨w.current.toNat, w.deepest.toNat⟩

theorem toNat_up {n : UInt64} (h : n.toNat + 1 < UInt64.size) : (up n).toNat = n.toNat + 1 := by
  rw [up, Nat.min_eq_left (Nat.le_sub_one_of_lt h), UInt64.toNat_ofNat_of_lt' h]

theorem toNat_down (n : UInt64) : (down n).toNat = n.toNat - 1 :=
  UInt64.toNat_ofNat_of_lt' (Nat.lt_of_le_of_lt (Nat.sub_le _ _) n.toNat_lt)

theorem depth_leave (w : WordDepth) : w.leave.depth = w.depth.leave := by
  simp only [depth, leave, toNat_down, Depth.leave]

/-- Words go one level deeper like numbers if there is a word for that level. -/
theorem depth_deeper {w : WordDepth} (h : w.current.toNat + 1 < UInt64.size) :
    w.deeper.depth = w.depth.deeper := by
  -- The level that is entered is a word, so the words compare like their numbers.
  have hup := toNat_up h
  simp only [depth, deeper, Depth.deeper, hup, Depth.mk.injEq, true_and]
  by_cases hlt : w.deepest < up w.current
  · have hle : w.deepest.toNat < w.current.toNat + 1 := hup ▸ UInt64.lt_iff_toNat_lt.1 hlt
    rw [if_pos hlt, hup, Nat.max_eq_right hle.le]
  · have hle : w.current.toNat + 1 ≤ w.deepest.toNat :=
      hup ▸ Nat.le_of_not_lt (mt UInt64.lt_iff_toNat_lt.2 hlt)
    rw [if_neg hlt, Nat.max_eq_left hle]

/-- Entering fails exactly when the limit is reached, and then changes nothing. -/
theorem enter_cases (limit : Option UInt64) (w : WordDepth) :
    (∃ n, limit = some n ∧ n ≤ w.current ∧ w.enter limit = (.error n, w)) ∨
      (∀ n, limit = some n → w.current < n) ∧ w.enter limit = (.ok (), w.deeper) := by
  cases limit with
  | none => exact .inr ⟨nofun, rfl⟩
  | some n =>
      by_cases h : n ≤ w.current
      · exact .inl ⟨n, rfl, h, if_pos h⟩
      · refine .inr ⟨?_, if_neg h⟩
        rintro m ⟨⟩
        exact UInt64.not_le.1 h

end WordDepth

/-! ## Guards -/

/-- What the guards see of a counter: entering a level is granted or refused, and leaving a level
does not tell which one is left. -/
structure Gate (γ : Type) where
  start : γ
  enter : γ → Bool × γ
  leave : γ → γ

/-- The gate of a depth counter with the given limit. -/
def Depth.gate (limit : Option Nat) : Gate Depth where
  start := .zero
  enter d :=
    match d.enter limit with
    | .ok d => (true, d)
    | .error _ => (false, d)
  leave := .leave

/-- The gate of a depth counter in words with the given limit. -/
def WordDepth.gate (limit : Option UInt64) : Gate WordDepth where
  start := .zero
  enter w := ((w.enter limit).1.isOk, (w.enter limit).2)
  leave := .leave

namespace Gate

/-- What is done with a counter. -/
inductive Act where
  | enter
  | release (guard : Nat)
deriving DecidableEq

/-- A counter, the guards alive, and how many guards were issued so far. -/
structure Holding (γ : Type) where
  counter : γ
  live : Finset Nat
  issued : Nat

/-- The same guards at another counter. -/
def Holding.map {γ δ : Type} (f : γ → δ) (h : Holding γ) : Holding δ :=
  ⟨f h.counter, h.live, h.issued⟩

variable {γ : Type}

/-- Does one act.  A level that is entered gets a guard with the next number, and a guard leaves a
level when it is released; only guards that are alive can be released. -/
def step (gate : Gate γ) (h : Holding γ) : Act → Holding γ
  | .enter =>
    match gate.enter h.counter with
    | (true, counter) => ⟨counter, insert h.issued h.live, h.issued + 1⟩
    | (false, counter) => { h with counter }
  | .release guard =>
    if guard ∈ h.live then ⟨gate.leave h.counter, h.live.erase guard, h.issued⟩ else h

/-- What a new counter and its guards come to. -/
def after (gate : Gate γ) (acts : List Act) : Holding γ := acts.foldl gate.step ⟨gate.start, ∅, 0⟩

theorem after_concat (gate : Gate γ) (acts : List Act) (act : Act) :
    gate.after (acts ++ [act]) = gate.step (gate.after acts) act := by
  rw [after, List.foldl_concat, after]

/-- The depths that are reached by acts, the first one included. -/
def depths (gate : Gate γ) (depthOf : γ → Nat) (acts : List Act) : Set Nat :=
  {n | ∃ before, before <+: acts ∧ depthOf (gate.after before).counter = n}

theorem depths_nil (gate : Gate γ) (depthOf : γ → Nat) :
    gate.depths depthOf [] = {depthOf gate.start} := by
  ext n
  simp only [depths, List.prefix_nil, exists_eq_left, Set.mem_ofPred_eq, Set.mem_singleton_iff]
  exact eq_comm

theorem depths_concat (gate : Gate γ) (depthOf : γ → Nat) (acts : List Act) (act : Act) :
    gate.depths depthOf (acts ++ [act]) =
      insert (depthOf (gate.after (acts ++ [act])).counter) (gate.depths depthOf acts) := by
  ext n
  simp only [depths, List.prefix_concat_iff, or_and_right, exists_or, exists_eq_left,
    Set.mem_ofPred_eq, Set.mem_insert_iff, @eq_comm _ n]

/-- A view of a counter that goes along with what is done to the counter goes along with an act. -/
theorem map_step {δ : Type} {gate : Gate γ} {gate' : Gate δ} {f : γ → δ} {h : Holding γ}
    {act : Act}
    (henter : act = .enter → gate'.enter (f h.counter) = (gate.enter h.counter).map id f)
    (hleave : gate'.leave (f h.counter) = f (gate.leave h.counter)) :
    (gate.step h act).map f = gate'.step (h.map f) act := by
  cases act with
  | enter =>
      simp only [step, Holding.map, henter rfl]
      cases gate.enter h.counter with
      | mk granted counter => cases granted <;> rfl
  | release guard =>
      simp only [step, Holding.map, hleave]
      split <;> rfl

/-- A level that is entered has a guard of its own. -/
theorem card_step_enter {gate : Gate γ} {h : Holding γ} (hfresh : h.issued ∉ h.live)
    (hgranted : (gate.enter h.counter).1 = true) :
    (gate.step h .enter).live.card = h.live.card + 1 := by
  rw [step]
  split
  · exact Finset.card_insert_of_notMem hfresh
  · next hrefused =>
      rw [hrefused] at hgranted
      cases hgranted

end Gate

/-! ## The depth is the number of guards -/

namespace Depth

open Gate

variable {limit : Option Nat}

theorem gate_enter_cases (limit : Option Nat) (d : Depth) :
    d.HasRoom limit ∧ (gate limit).enter d = (true, d.deeper) ∨
      ¬d.HasRoom limit ∧ (gate limit).enter d = (false, d) := by
  cases henter : d.enter limit with
  | ok d' =>
      obtain ⟨hroom, rfl⟩ := enter_eq_ok.1 henter
      exact .inl ⟨hroom, by simp only [gate, henter]⟩
  | error n =>
      obtain ⟨hlimit, hreached⟩ := (enter_eq_error_iff limit d n).1 henter
      exact .inr ⟨fun hroom => Nat.not_lt.2 hreached (hroom n hlimit), by simp only [gate, henter]⟩

/-- There are as many guards alive as levels entered, and no more than the limit allows. -/
structure Balances (limit : Option Nat) (h : Holding Depth) : Prop where
  fresh : ∀ guard ∈ h.live, guard < h.issued
  current_eq : h.counter.current = h.live.card
  le_limit : ∀ n, limit = some n → h.counter.current ≤ n
  le_deepest : h.counter.current ≤ h.counter.deepest

theorem balances_start (limit : Option Nat) : Balances limit ⟨(gate limit).start, ∅, 0⟩ where
  fresh := by simp
  current_eq := rfl
  le_limit _ _ := Nat.zero_le _
  le_deepest := Nat.le_refl _

/-- The next guard is a new one. -/
theorem Balances.issued_not_mem {h : Holding Depth} (hb : Balances limit h) : h.issued ∉ h.live :=
  fun hmem => (hb.fresh _ hmem).ne rfl

/-- Every act keeps the balance. -/
theorem Balances.step {h : Holding Depth} (hb : Balances limit h) (act : Act) :
    Balances limit ((gate limit).step h act) := by
  cases act with
  | enter =>
      rw [Gate.step]
      obtain ⟨hroom, henter⟩ | ⟨-, henter⟩ := gate_enter_cases limit h.counter
      · rw [henter]
        refine ⟨fun guard hguard => ?_, ?_, hroom, Nat.le_max_right _ _⟩
        · rcases Finset.mem_insert.1 hguard with rfl | hguard
          · exact Nat.lt_succ_self _
          · exact Nat.lt_succ_of_lt (hb.fresh guard hguard)
        · rw [Finset.card_insert_of_notMem hb.issued_not_mem, ← hb.current_eq]
          rfl
      · rw [henter]
        exact hb
  | release guard =>
      rw [Gate.step]
      split
      · next hlive =>
          refine ⟨fun other hother => hb.fresh other (Finset.mem_of_mem_erase hother), ?_, ?_, ?_⟩
          · rw [Finset.card_erase_of_mem hlive, ← hb.current_eq]
            rfl
          · exact fun n hn => Nat.le_trans (Nat.sub_le _ _) (hb.le_limit n hn)
          · exact Nat.le_trans (Nat.sub_le _ _) hb.le_deepest
      · exact hb

/-- The depth is balanced by the guards after any acts. -/
theorem balances_after (limit : Option Nat) (acts : List Act) :
    Balances limit ((gate limit).after acts) := by
  induction acts using List.reverseRecOn with
  | nil => exact balances_start limit
  | append_singleton acts act ih =>
      rw [after_concat]
      exact ih.step act

/-- The deepest level is only changed to follow the depth. -/
theorem Balances.deepest_step {h : Holding Depth} (hb : Balances limit h) (act : Act) :
    ((gate limit).step h act).counter.deepest =
      max ((gate limit).step h act).counter.current h.counter.deepest := by
  cases act with
  | enter =>
      rw [Gate.step]
      obtain ⟨-, henter⟩ | ⟨-, henter⟩ := gate_enter_cases limit h.counter
      · rw [henter]
        exact Nat.max_comm _ _
      · rw [henter]
        exact (Nat.max_eq_right hb.le_deepest).symm
  | release guard =>
      rw [Gate.step]
      split
      · exact (Nat.max_eq_right (Nat.le_trans (Nat.sub_le _ _) hb.le_deepest)).symm
      · exact (Nat.max_eq_right hb.le_deepest).symm

/-- The deepest level is the greatest depth that was reached. -/
theorem isGreatest_deepest (limit : Option Nat) (acts : List Act) :
    IsGreatest ((gate limit).depths current acts) ((gate limit).after acts).counter.deepest := by
  induction acts using List.reverseRecOn with
  | nil =>
      rw [depths_nil]
      exact isGreatest_singleton
  | append_singleton acts act ih =>
      rw [depths_concat, after_concat, (balances_after limit acts).deepest_step act]
      exact ih.insert _

end Depth

/-! ## Words count like numbers -/

namespace WordDepth

open Gate

variable {limit : Option UInt64}

/-- The gate of the words does what the gate of the numbers does, if there is a word for the level
that may be entered. -/
theorem gate_enter (limit : Option UInt64) (w : WordDepth)
    (hroom : ((gate limit).enter w).1 = true → w.current.toNat + 1 < UInt64.size) :
    (Depth.gate (limit.map UInt64.toNat)).enter w.depth =
      ((gate limit).enter w).map id WordDepth.depth := by
  obtain ⟨n, rfl, hn, henter⟩ | ⟨hlt, henter⟩ := enter_cases limit w
  · have hfull : ¬w.depth.HasRoom (some n.toNat) := fun h =>
      Nat.not_lt.2 (UInt64.le_iff_toNat_le.1 hn) (h _ rfl)
    obtain ⟨h, -⟩ | ⟨-, h⟩ := Depth.gate_enter_cases (some n.toNat) w.depth
    · exact absurd h hfull
    · simp only [gate, henter]
      exact h
  · have hfree : w.depth.HasRoom (limit.map UInt64.toNat) := by
      intro n hn
      obtain ⟨m, hm, rfl⟩ := Option.map_eq_some_iff.1 hn
      exact UInt64.lt_iff_toNat_lt.1 (hlt m hm)
    obtain ⟨-, h⟩ | ⟨h, -⟩ := Depth.gate_enter_cases (limit.map UInt64.toNat) w.depth
    · rw [h, ← depth_deeper (hroom (by simp only [gate, henter]; rfl))]
      simp only [gate, henter]
      rfl
    · exact absurd hfree h

/-- As long as fewer guards than words are alive, a counter in words and a counter in numbers have
the same depth and the same guards. -/
theorem map_after (limit : Option UInt64) (acts : List Act)
    (hfew : ∀ before, before <+: acts → ((gate limit).after before).live.card < UInt64.size) :
    ((gate limit).after acts).map WordDepth.depth =
      (Depth.gate (limit.map UInt64.toNat)).after acts := by
  induction acts using List.reverseRecOn with
  | nil => rfl
  | append_singleton acts act ih =>
      have hmap := ih fun before hbefore => hfew before (hbefore.trans (List.prefix_append _ _))
      have hbalance := Depth.balances_after (limit.map UInt64.toNat) acts
      rw [← hmap] at hbalance
      have hcount : ((gate limit).after acts).counter.current.toNat =
          ((gate limit).after acts).live.card := hbalance.current_eq
      rw [after_concat, after_concat, ← hmap]
      refine map_step (fun hact => gate_enter limit _ fun hgranted => ?_) (depth_leave _).symm
      -- The new guard is one of those that are counted behind this act.
      subst hact
      have hfresh : ((gate limit).after acts).issued ∉ ((gate limit).after acts).live :=
        hbalance.issued_not_mem
      rw [hcount, ← card_step_enter hfresh hgranted, ← after_concat]
      exact hfew _ List.prefix_rfl

/-- The same depths are reached in words and in numbers. -/
theorem depths_eq (limit : Option UInt64) (acts : List Act)
    (hfew : ∀ before, before <+: acts → ((gate limit).after before).live.card < UInt64.size) :
    (gate limit).depths (·.current.toNat) acts =
      (Depth.gate (limit.map UInt64.toNat)).depths Depth.current acts := by
  ext n
  refine exists_congr fun before => and_congr_right fun hbefore => ?_
  rw [← map_after limit before fun earlier hearlier => hfew earlier (hearlier.trans hbefore)]
  rfl

/-- Levels are entered and guards are released in any order, with fewer than `2 ^ 64` guards alive
at a time.  Then the depth is the number of guards alive and keeps to the limit, and the deepest
level is the greatest depth that was reached.  Entering fails exactly when the depth has reached the
limit, and then changes nothing; releasing a guard that is alive takes exactly one level off.  It is
all as if the words were numbers. -/
theorem depth_counts_guards (limit : Option UInt64) (acts : List Act)
    (hfew : ∀ before, before <+: acts → ((gate limit).after before).live.card < 2 ^ 64) :
    let h := (gate limit).after acts
    h.counter.current.toNat = h.live.card ∧
      (∀ n, limit = some n → h.counter.current ≤ n) ∧
      IsGreatest ((gate limit).depths (·.current.toNat) acts) h.counter.deepest.toNat ∧
      -- one more level
      (∀ n, (h.counter.enter limit).1 = .error n ↔ limit = some n ∧ h.counter.current = n) ∧
      (∀ n, (h.counter.enter limit).1 = .error n → (h.counter.enter limit).2 = h.counter) ∧
      -- one level less
      (∀ guard ∈ h.live, 0 < h.counter.current ∧
        h.counter.leave.current.toNat + 1 = h.counter.current.toNat) ∧
      h.map WordDepth.depth = (Depth.gate (limit.map UInt64.toNat)).after acts := by
  intro h
  have hmap : h.map WordDepth.depth = (Depth.gate (limit.map UInt64.toNat)).after acts :=
    map_after limit acts hfew
  -- The balance of the numbers is read as a balance of the words.
  have hbalance := Depth.balances_after (limit.map UInt64.toNat) acts
  rw [← hmap] at hbalance
  have hcount : h.counter.current.toNat = h.live.card := hbalance.current_eq
  have hlimit : ∀ n, limit = some n → h.counter.current ≤ n := fun n hn =>
    UInt64.le_iff_toNat_le.2 (hbalance.le_limit _ (by rw [hn, Option.map_some]))
  refine ⟨hcount, hlimit, ?_, fun n => ?_, fun n herror => ?_, fun guard hguard => ?_, hmap⟩
  · have hgreatest := Depth.isGreatest_deepest (limit.map UInt64.toNat) acts
    rw [← hmap, ← depths_eq limit acts hfew] at hgreatest
    exact hgreatest
  · obtain ⟨m, hm, hfull, henter⟩ | ⟨hlt, henter⟩ := enter_cases limit h.counter
    · have hsame : h.counter.current = m := UInt64.le_antisymm (hlimit m hm) hfull
      rw [henter, hsame]
      simp [hm]
    · rw [henter]
      simp only [reduceCtorEq, false_iff, not_and]
      intro hn hsame
      exact UInt64.ne_of_lt (hlt n hn) hsame
  · obtain ⟨m, -, -, henter⟩ | ⟨-, henter⟩ := enter_cases limit h.counter
    · rw [henter]
    · rw [henter] at herror
      cases herror
  · have hpos : 0 < h.counter.current.toNat := by
      rw [hcount]
      exact Finset.card_pos.2 ⟨guard, hguard⟩
    refine ⟨UInt64.lt_iff_toNat_lt.2 hpos, ?_⟩
    rw [leave, toNat_down]
    exact Nat.sub_add_cancel hpos

/-- The third level is refused until the guard of the first one is released, before the second. -/
theorem depth_counts_guards_unordered :
    let acts : List Act := [.enter, .enter, .enter, .release 0, .enter]
    let h := (gate (some 2)).after acts
    (∀ before, before <+: acts → ((gate (some 2)).after before).live.card < 2 ^ 64) ∧
      h.live = {1, 2} ∧ h.counter.current.toNat = 2 ∧ (h.counter.enter (some 2)).1 = .error 2 ∧
        (h.counter.enter (some 2)).2 = h.counter ∧ 0 < h.counter.current := by
  intro acts h
  have hfew : ∀ before, before <+: acts →
      ((gate (some 2)).after before).live.card < 2 ^ 64 := by
    simp only [← List.mem_inits]
    decide +kernel
  have hlive : h.live = {1, 2} := by decide +kernel
  have hcurrent : h.counter.current = 2 := by decide +kernel
  obtain ⟨hcount, -, -, herror, hsame, hrelease, -⟩ := depth_counts_guards (some 2) acts hfew
  have hfull : (h.counter.enter (some 2)).1 = .error 2 := (herror 2).2 ⟨rfl, hcurrent⟩
  refine ⟨hfew, hlive, ?_, hfull, hsame 2 hfull, (hrelease 1 ?_).1⟩
  · rw [hcount]
    decide +kernel
  · change 1 ∈ h.live
    rw [hlive]
    decide

end WordDepth

end PolicyEval
