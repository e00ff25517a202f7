import Mathlib.Data.List.ReduceOption
import TickTree.Proofs.Jumps
import TickTree.Proofs.Trails

/-!
# What counters hold

Code is entered from outside at its first instruction only, and that of a counted loop begins with
the instruction that sets its counter to zero (`Program.Loop`). So wherever control is in the loop
behind that instruction, however it has come there (`Program.Trek`), it has not been outside since
that instruction was dispatched, and the counter holds how often it was dispatched since
(`Program.Lapping`). Each step in the loop keeps this, and a step into it begins it
(`Program.Loop.lapping`). Once the goal is exceeded the loop is left, so as long as it is not, every
dispatch of the counter has led into the body, and there were no more of them than the goal says.

The largest goal a definition can have is excepted. No count exceeds it, so where it is the goal the
counter goes on counting, and holds the number of rounds only up to whole turns.
-/

namespace TickTree

variable {K A : Type}

/-! ## Rounds begun -/

/-- How often a counter was dispatched since the instruction in front of it was, newest dispatch
first. -/
def laps (counter : Nat) : List Nat → Nat
  | [] => 0
  | j :: earlier =>
      if j + 1 = counter then 0
      else if j = counter then laps counter earlier + 1
      else laps counter earlier

/-- How often control went from a counter into the body behind it since it was last at the
instruction in front of the counter, newest place first. -/
def entrances (counter : Nat) : List Nat → Nat
  | k :: j :: earlier =>
      if k + 1 = counter then 0
      else if k = counter + 1 ∧ j = counter then entrances counter (j :: earlier) + 1
      else entrances counter (j :: earlier)
  | _ => 0

section

variable {counter j k : Nat} (earlier : List Nat)

theorem laps_start : laps (j + 1) (j :: earlier) = 0 := by simp [laps]

theorem laps_count : laps j (j :: earlier) = laps j earlier + 1 := by simp [laps]

theorem laps_other (hstart : j + 1 ≠ counter) (hcount : j ≠ counter) :
    laps counter (j :: earlier) = laps counter earlier := by simp [laps, hstart, hcount]

theorem entrances_start : entrances (j + 1) (j :: earlier) = 0 := by
  cases earlier <;> simp [entrances]

theorem entrances_body :
    entrances j ((j + 1) :: j :: earlier) = entrances j (j :: earlier) + 1 := by
  rw [entrances, if_neg (by omega), if_pos ⟨rfl, rfl⟩]

theorem entrances_other (hstart : k + 1 ≠ counter) (hbody : k = counter + 1 → j ≠ counter) :
    entrances counter (k :: j :: earlier) = entrances counter (j :: earlier) := by
  by_cases hk : k = counter + 1 <;> simp_all [entrances]

end

example : entrances 1 [2, 1, 3, 2, 2, 1, 0] = 2 := by decide

/-! ## Treks -/

/-- The counters with which control may have come to an index by the instructions dispatched so far,
newest first. With `none` in place of an instruction it began at the first one again, as it may at
any time. -/
inductive Program.Trek (p : Program K A) : List (Option Nat) → Nat → Rounds → Prop where
  | anew (track : List (Option Nat)) (c : Rounds) : Trek p track 0 c
  | step {track : List (Option Nat)} {j k : Nat} {c d : Rounds} : Trek p track j c →
      p.Step j c k d → Trek p (some j :: track) k d
  | stay {track : List (Option Nat)} {j : Nat} {c : Rounds} {i : Instruction Nat K A} :
      Trek p track j c → p.get? j = some i → ¬ i.op.IsLoop → Trek p (some j :: track) j c

/-! ## Counted loops -/

/-- The code of a counted loop: the instruction that sets its counter to zero, the counter behind
it, and the body behind that. -/
structure Program.Loop (p : Program K A) (start hi : Nat) (goal : UInt32) (exit : Verdict → Nat) :
    Prop where
  begins : p.get? start = some ⟨.repeatStart (start + 1), start + 1, start + 1⟩
  counter : p.get? (start + 1) =
    some ⟨.repeatCounter goal (start + 2), exit .success, exit .failure⟩
  body : start + 2 < hi
  /-- No instruction of the body has to do with the counter. -/
  sound : p.SoundOn (start + 2) hi
  entered : p.EnteredFirst start hi
  exits : ∀ v, ¬ (start < exit v ∧ exit v < hi)

/-- Control is in a loop behind the instruction that sets its counter to zero. -/
structure Program.Lapping (start hi : Nat) (goal : UInt32) (track : List (Option Nat)) (j : Nat)
    (c : Rounds) : Prop where
  /-- It has not been elsewhere since that instruction was dispatched. -/
  inside : ∃ (since : List Nat) (earlier : List (Option Nat)),
    track = since.map some ++ some start :: earlier ∧ ∀ k ∈ since, start < k ∧ k < hi
  holds : c (start + 1) = .ofNat (laps (start + 1) track.reduceOption)
  within : goal < largestCount → laps (start + 1) track.reduceOption ≤ goal.toNat
  /-- In the body a round was begun. -/
  begun : start + 1 < j → 1 ≤ laps (start + 1) track.reduceOption
  /-- Every round was begun by entering the body. -/
  entered : entrances (start + 1) (j :: track.reduceOption) =
    laps (start + 1) track.reduceOption

section

variable {root : Node K A} {p : Program K A} {i : Instruction Nat K A} {goal : UInt32}
  {start hi j k body : Nat} {exit : Verdict → Nat} {c d : Rounds} {track : List (Option Nat)}

/-- A step that leaves a counted repetition is one of its counter, for the goal is exceeded, or the
child has failed and that breaks it. -/
theorem Node.Enclosed.leaves_repeat {child : Node K A} {count : Option UInt32} {breakOnFail : Bool}
    {weight : UInt32} {start : Nat} {exit : Verdict → Nat}
    (h : (Node.mk (.repeatLoop count breakOnFail) [child] weight).Enclosed p start exit)
    (hcount : bound? count = some goal) (hstep : p.Step j c k d) (hlo : start ≤ j)
    (hhi : j < start + (Node.mk (.repeatLoop count breakOnFail) [child] weight).size)
    (hout : ¬ (start ≤ k ∧
      k < start + (Node.mk (.repeatLoop count breakOnFail) [child] weight).size)) :
    (j = start + 1 ∧ k = exit .success ∧ c j + 1 > goal) ∨
      (breakOnFail = true ∧ start + 2 ≤ j ∧ k = exit .failure) := by
  obtain ⟨_, heq, hhead, hbody⟩ := h.placed.repeatLoop
  cases heq
  obtain ⟨hstart, hcounter⟩ := hhead goal hcount
  have hpos := hbody.size_pos
  simp only [Node.size, sizes, headSize, hcount, Nat.add_zero] at hhi hout hbody
  rcases Nat.lt_or_ge j (start + 2) with hj | hj
  · rcases (show j = start ∨ j = start + 1 by omega) with rfl | rfl
    · obtain ⟨rfl, -⟩ := hstep.of_start hstart
      omega
    · obtain ⟨rfl, -⟩ := hstep.of_counter hcounter
      by_cases hexceeds : c (start + 1) + 1 > goal
      · exact .inl ⟨rfl, if_pos hexceeds, hexceeds⟩
      · rw [if_neg hexceeds] at hout
        omega
  · obtain ⟨i, hget, hnext⟩ := hstep.mem_nexts
    rcases hbody.goesOn j i hj (by omega) hget k hnext with hin | ⟨v, rfl⟩
    · omega
    · simp only [loopAgain, hcount] at hout ⊢
      cases breakOnFail with
      | false =>
        simp only [Bool.false_eq_true, if_false] at hout
        omega
      | true =>
        cases v with
        | success =>
          simp only [if_true, toward_self] at hout
          omega
        | failure => exact .inr ⟨rfl, hj, rfl⟩

/-- At a counter its goal is compared with one more than it holds. -/
theorem exceeds_iff {n : Nat} (hle : n ≤ goal.toNat) (hgoal : goal < largestCount) :
    UInt32.ofNat n + 1 > goal ↔ n = goal.toNat := by
  have hn : (UInt32.ofNat n).toNat = n :=
    UInt32.toNat_ofNat_of_lt' (Nat.lt_of_le_of_lt hle goal.toNat_lt)
  rw [gt_iff_lt, UInt32.lt_iff_toNat_lt, toNat_add_one (by rwa [hn]) hgoal, hn]
  omega

theorem Node.Enclosed.loop {node : Node K A} {count : Option UInt32}
    (h : node.Enclosed p start exit) (hkind : node.kind.loop? = some count)
    (hcount : bound? count = some goal) : p.Loop start (start + node.size) goal exit := by
  obtain ⟨kind, children, weight⟩ := node
  have hkind : kind.loop? = some count := hkind
  have hlaid := h.placed.laid
  obtain ⟨hstart, hcounter⟩ := hlaid.loop count hkind goal hcount
  have hpos := hlaid.row.sizes_pos fun hnil => by simp [(hlaid.leaf hnil).2] at hkind
  have hsize := hlaid.size
  rw [Node.lead_of_loop hkind, headSize, hcount] at hsize
  exact ⟨hstart, hcounter, by simp only at hsize; omega,
    fun j i hlo hhi => h.placed.sound j i (by omega) hhi, h.entered, fun v => h.exits _ ⟨v, rfl⟩⟩

/-- A counter in a compiled program is that of a loop. -/
theorem Node.loop_of_counter (h : compile root = .ok p) (hget : p.get? k = some i)
    (hop : i.op = .repeatCounter goal body) :
    ∃ start hi exit, k = start + 1 ∧ p.Loop start hi goal exit := by
  obtain ⟨node, count, goal', start, exit, hnode, hkind, hcount, -, -, hk⟩ :=
    exists_loop h hget (by simp [hop, Op.IsLoop])
  have hloop := hnode.loop hkind hcount
  rcases hk with rfl | rfl
  · rw [hloop.begins] at hget
    cases hget
    cases hop
  · rw [hloop.counter] at hget
    cases hget
    cases hop
    exact ⟨start, _, exit, rfl, hloop⟩

namespace Program.Lapping

theorem reset (goal : UInt32) (track : List (Option Nat)) (c : Rounds) :
    Lapping start hi goal (some start :: track) (start + 1) (Function.update c (start + 1) 0) where
  inside := ⟨[], track, rfl, nofun⟩
  holds := by
    rw [List.reduceOption_cons_of_some, laps_start, Function.update_self]
    rfl
  within _ := by simp [laps_start]
  begun hlt := absurd hlt (Nat.lt_irrefl _)
  entered := by
    rw [List.reduceOption_cons_of_some, entrances_other _ (by omega) (by omega), entrances_start,
      laps_start]

/-- A round is counted. -/
theorem count (h : Lapping start hi goal track (start + 1) c) (hbody : start + 2 < hi)
    (hstay : ¬ c (start + 1) + 1 > goal) :
    Lapping start hi goal (some (start + 1) :: track) (start + 2)
      (Function.update c (start + 1) (c (start + 1) + 1)) where
  inside := by
    obtain ⟨since, earlier, rfl, hsince⟩ := h.inside
    exact ⟨(start + 1) :: since, earlier, rfl, List.forall_mem_cons.2 ⟨by omega, hsince⟩⟩
  holds := by
    rw [List.reduceOption_cons_of_some, laps_count, Function.update_self, h.holds]
    exact (UInt32.ofNat_add _ 1).symm
  within hgoal := by
    have hle := h.within hgoal
    rw [h.holds, exceeds_iff hle hgoal] at hstay
    rw [List.reduceOption_cons_of_some, laps_count]
    omega
  begun _ := by
    rw [List.reduceOption_cons_of_some, laps_count]
    omega
  entered := by
    rw [List.reduceOption_cons_of_some, entrances_body, h.entered, laps_count]

/-- What is done in the body leaves the counter alone. -/
theorem go (h : Lapping start hi goal track j c) (hlo : start + 1 < j) (hhi : j < hi)
    (hk : start < k) (hsame : d (start + 1) = c (start + 1)) :
    Lapping start hi goal (some j :: track) k d := by
  have hlaps : laps (start + 1) (some j :: track).reduceOption =
      laps (start + 1) track.reduceOption := by
    rw [List.reduceOption_cons_of_some, laps_other _ (by omega) (by omega)]
  refine ⟨?_, by rw [hsame, hlaps, h.holds], fun hgoal => hlaps ▸ h.within hgoal,
    fun _ => hlaps ▸ h.begun hlo, ?_⟩
  · obtain ⟨since, earlier, rfl, hsince⟩ := h.inside
    exact ⟨j :: since, earlier, rfl, List.forall_mem_cons.2 ⟨by omega, hsince⟩⟩
  · rw [hlaps, List.reduceOption_cons_of_some, entrances_other _ (by omega) (by omega), h.entered]

end Program.Lapping

namespace Program.Loop

/-- A step that comes to be in the loop has begun there, or has entered it in front of the counter
just now. -/
theorem lapping_step (hloop : p.Loop start hi goal exit) (hstep : p.Step j c k d)
    (ih : start < j → j < hi → Lapping start hi goal track j c) (hlo : start < k) (hhi : k < hi) :
    Lapping start hi goal (some j :: track) k d := by
  by_cases hin : start ≤ j ∧ j < hi
  · rcases Nat.lt_or_ge (start + 1) j with hj | hj
    · exact (ih (by omega) hin.2).go hj hin.2 hlo
        (hstep.rounds hloop.sound hj hin.2 (Nat.lt_succ_self _))
    rcases (show j = start ∨ j = start + 1 by omega) with rfl | rfl
    · obtain ⟨rfl, rfl⟩ := hstep.of_start hloop.begins
      exact .reset goal track c
    · obtain ⟨rfl, rfl⟩ := hstep.of_counter hloop.counter
      by_cases hover : c (start + 1) + 1 > goal
      · rw [if_pos hover] at hlo hhi
        exact absurd ⟨hlo, hhi⟩ (hloop.exits .success)
      · rw [if_neg hover]
        exact (ih (by omega) (by omega)).count hloop.body hover
  · -- From outside nothing leads behind the first instruction.
    obtain ⟨i, hget, hnext⟩ := hstep.mem_nexts
    exact absurd ⟨hlo, hhi⟩ (hloop.entered j i hin hget k hnext)

/-- However control has come into a loop behind the instruction that sets its counter to zero. -/
theorem lapping (hloop : p.Loop start hi goal exit) (h : p.Trek track j c) (hlo : start < j)
    (hhi : j < hi) : Lapping start hi goal track j c := by
  induction h with
  | anew => exact absurd hlo (Nat.not_lt_zero _)
  | step _ hstep ih => exact hloop.lapping_step hstep ih hlo hhi
  | @stay track j c i _ hget hop ih =>
    refine (ih hlo hhi).go ?_ hhi hlo rfl
    by_contra hnot
    obtain rfl : j = start + 1 := by omega
    rw [hloop.counter] at hget
    cases hget
    exact hop trivial

end Program.Loop

/-- However control has come to a counter, it holds how many rounds were begun. -/
theorem Program.Trek.holds (h : p.Trek track k c) (hroot : compile root = .ok p)
    (hget : p.get? k = some i) (hop : i.op = .repeatCounter goal body) :
    c k = .ofNat (laps k track.reduceOption) ∧
      (goal < largestCount → laps k track.reduceOption ≤ goal.toNat) := by
  obtain ⟨start, hi, exit, rfl, hloop⟩ := Node.loop_of_counter hroot hget hop
  have hbody := hloop.body
  have hlapping := hloop.lapping h (Nat.lt_succ_self _) (by omega)
  exact ⟨hlapping.holds, hlapping.within⟩

end

end TickTree
