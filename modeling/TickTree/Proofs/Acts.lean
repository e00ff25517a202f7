import Mathlib.Data.List.Count
import TickTree.Proofs.Squads

/-!
# Acts of simulations

A simulation does one act after the other: it begins a round, raises the alarm, aborts a guard,
reports the alarm, ticks a guard (`Act`). Which acts, and in which order, depends on its settings
alone (`Settings.acts`). If all of them can be performed, the simulation plays to its end, and what
it leaves is what they leave (`Simulation.play_of_performAll`). So the worlds after some of its acts
are all the worlds between two calls of the guard tree.

What an act makes of a guard is said by `Act.Befalls`, and what acts in a row make of it by
`Career`. As long as all guards are posted, any acts can be performed in any order, and each guard
has its career (`Stationed.performAll`).
-/

namespace TickTree.Patrol

/-! ## Acts -/

/-- One thing that a simulation does. -/
inductive Act where
  /-- It begins a round. -/
  | round (number : Nat)
  /-- It raises the alarm on the squad's board. -/
  | raise
  /-- It aborts a guard. -/
  | abort (a : GuardId)
  /-- It reports that the alarm was raised. -/
  | report (number : Nat)
  /-- It ticks a guard. -/
  | tick (a : GuardId)
deriving DecidableEq

/-- The world after an act, unless the act ends the simulation. -/
def Act.perform (F : Forest GuardId Watch) :
    Act → World GuardId Watch → Option (World GuardId Watch)
  | .round number, w => some { w with ambient := ⟨UInt32.ofNat number⟩ }
  | .raise, w =>
      match (w.registry squadRegistry).update squad (setAlarm true) with
      | (.ok _, r) => some (w.setRegistry squadRegistry r)
      | (.error _, _) => none
  | .abort a, w =>
      match F.operate (.abort guardTree a) w with
      | .done () w' => some w'
      | .cutOff _ => none
  | .report number, w =>
      some (w.log (.noted ⟨.info, simulationSource, "alarm raised", [("round", toString number)]⟩))
  | .tick a, w =>
      match F.operate (.run guardTree a) w with
      | .done (.ok _) w' => some w'
      | .done (.error _) _ => none
      | .cutOff _ => none

/-- The world after acts in a row. -/
def performAll (F : Forest GuardId Watch) :
    List Act → World GuardId Watch → Option (World GuardId Watch)
  | [], w => some w
  | act :: acts, w => (act.perform F w).bind (performAll F acts)

/-- The acts of a round. -/
def Settings.roundActs (settings : Settings) (round : Nat) : List Act :=
  let guards := numbered settings.agents.toNat 0
  .round round ::
    ((if settings.alarmAt round then .raise :: (guards.map .abort ++ [.report round]) else []) ++
      guards.map .tick)

/-- The acts of so many rounds, the first of them numbered. -/
def Settings.actsFrom (settings : Settings) : (rounds first : Nat) → List Act
  | 0, _ => []
  | rounds + 1, first => settings.roundActs first ++ settings.actsFrom rounds (first + 1)

/-- The acts of a simulation. -/
def Settings.acts (settings : Settings) : List Act := settings.actsFrom settings.ticks.toNat 0

section

variable {F : Forest GuardId Watch} {settings : Settings} {w w' : World GuardId Watch}

theorem performAll_append (acts later : List Act) :
    performAll F (acts ++ later) w = (performAll F acts w).bind (performAll F later) := by
  induction acts generalizing w with
  | nil => rfl
  | cons act acts ih =>
    rw [List.cons_append, performAll, performAll, Option.bind_assoc]
    exact congrArg _ (funext fun _ => ih)

theorem performAll_cons_eq_some {act : Act} {acts : List Act}
    (h : performAll F (act :: acts) w = some w') :
    ∃ v, act.perform F w = some v ∧ performAll F acts v = some w' := Option.bind_eq_some_iff.1 h

theorem performAll_append_eq_some {acts later : List Act}
    (h : performAll F (acts ++ later) w = some w') :
    ∃ v, performAll F acts w = some v ∧ performAll F later v = some w' := by
  rw [performAll_append] at h
  exact Option.bind_eq_some_iff.1 h

theorem Act.perform_raise (h : Act.raise.perform F w = some w') :
    ∃ before r, (w.registry squadRegistry).update squad (setAlarm true) = (.ok before, r) ∧
      w' = w.setRegistry squadRegistry r := by
  rw [perform] at h
  split at h
  · rename_i before r hupdate
    exact ⟨before, r, hupdate, (Option.some.inj h).symm⟩
  · cases h

theorem Act.perform_abort {a : GuardId} (h : (Act.abort a).perform F w = some w') :
    F.operate (.abort guardTree a) w = .done () w' := by
  rw [perform] at h
  split at h
  · rename_i habort
    cases h
    exact habort
  · cases h

theorem Act.perform_tick {a : GuardId} (h : (Act.tick a).perform F w = some w') :
    ∃ status, F.operate (.run guardTree a) w = .done (.ok status) w' := by
  rw [perform] at h
  split at h
  · rename_i status _ hticks
    cases h
    exact ⟨status, hticks⟩
  · cases h
  · cases h

/-! ## Simulations are made of acts -/

theorem Simulation.abortAll_of_performAll {guards first : Nat}
    (h : performAll F ((numbered guards first).map .abort) w = some w') :
    abortAll F guards first w = .done () w' := by
  induction guards generalizing first w with
  | zero =>
    cases h
    rfl
  | succ guards ih =>
    obtain ⟨v, habort, hrest⟩ := performAll_cons_eq_some h
    rw [abortAll, Act.perform_abort habort, Outcome.bind_done]
    exact ih hrest

theorem Simulation.tickAll_of_performAll {guards first : Nat} (round : Nat) {s : Simulation}
    (h : performAll F ((numbered guards first).map .tick) s.world = some w') :
    ∃ tally, tickAll F round guards first s = (⟨w', tally⟩, none) := by
  induction guards generalizing first s with
  | zero =>
    cases h
    exact ⟨s.tally, rfl⟩
  | succ guards ih =>
    obtain ⟨v, htick, hrest⟩ := performAll_cons_eq_some h
    obtain ⟨status, hticks⟩ := Act.perform_tick htick
    obtain ⟨tally, hall⟩ := ih (s := ⟨v, s.tally.record status⟩) hrest
    exact ⟨tally, by simp only [tickAll, hticks, hall]⟩

theorem Simulation.raiseAlarm_of_performAll {guards round : Nat} {s : Simulation}
    (h : performAll F (.raise :: ((numbered guards 0).map .abort ++ [.report round])) s.world =
      some w') :
    raiseAlarm F guards round s = (⟨w', s.tally⟩, none) := by
  obtain ⟨v, hraise, hrest⟩ := performAll_cons_eq_some h
  obtain ⟨before, r, hupdate, rfl⟩ := Act.perform_raise hraise
  obtain ⟨v', haborts, hreport⟩ := performAll_append_eq_some hrest
  cases Option.some.inj hreport
  simp only [raiseAlarm, hupdate, abortAll_of_performAll haborts]
  rfl

/-- If the acts of a round can be performed, the round is played. -/
theorem Simulation.playRound_of_performAll {round : Nat} {s : Simulation}
    (h : performAll F (settings.roundActs round) s.world = some w') :
    ∃ tally, playRound F settings round s = (⟨w', tally⟩, none) := by
  obtain ⟨v, hround, hrest⟩ := performAll_cons_eq_some h
  cases hround
  obtain ⟨v', halarm, hticks⟩ := performAll_append_eq_some hrest
  cases hat : settings.alarmAt round with
  | true =>
    rw [if_pos hat] at halarm
    have hraise := raiseAlarm_of_performAll
      (s := { s with world := { s.world with ambient := ⟨UInt32.ofNat round⟩ } }) halarm
    obtain ⟨tally, hall⟩ := tickAll_of_performAll round (s := ⟨v', s.tally⟩) hticks
    exact ⟨tally, by simp only [playRound, hat, if_true, hraise, hall]⟩
  | false =>
    rw [if_neg (by simp [hat])] at halarm
    cases halarm
    obtain ⟨tally, hall⟩ := tickAll_of_performAll round
      (s := { s with world := { s.world with ambient := ⟨UInt32.ofNat round⟩ } }) hticks
    exact ⟨tally, by simp only [playRound, hat, Bool.false_eq_true, if_false, hall]⟩

/-- If the acts of rounds can be performed, the rounds are played. -/
theorem Simulation.playRounds_of_performAll {rounds first : Nat} {s : Simulation}
    (h : performAll F (settings.actsFrom rounds first) s.world = some w') :
    ∃ tally, playRounds F settings rounds first s = (⟨w', tally⟩, none) := by
  induction rounds generalizing first s with
  | zero =>
    cases h
    exact ⟨s.tally, rfl⟩
  | succ rounds ih =>
    obtain ⟨v, hround, hrest⟩ := performAll_append_eq_some h
    obtain ⟨tally, hplay⟩ := playRound_of_performAll hround
    obtain ⟨tally', hplays⟩ := ih (s := ⟨v, tally⟩) hrest
    exact ⟨tally', by simp only [playRounds, hplay, hplays]⟩

/-- If the acts of a simulation can be performed, it plays to its end. -/
theorem Simulation.play_of_performAll {s : Simulation}
    (h : performAll F settings.acts s.world = some w') :
    ∃ tally, s.play F settings = (⟨w', tally⟩, none) := playRounds_of_performAll h

end

/-- A simulation ticks each guard at most once a round. -/
theorem Settings.count_tick_roundActs (settings : Settings) (round : Nat) (a : GuardId) :
    (settings.roundActs round).count (.tick a) ≤ 1 := by
  have hinjective : Function.Injective Act.tick := fun _ _ h => Act.tick.inj h
  have hticks : ((numbered settings.agents.toNat 0).map Act.tick).count (.tick a) ≤ 1 := by
    rw [List.count_map_of_injective _ _ hinjective]
    exact List.nodup_iff_count_le_one.1 (nodup_numbered settings.agents.toNat_lt) a
  have hbefore : ∀ acts : List Act, (∀ act ∈ acts, ∀ b, act ≠ .tick b) →
      acts.count (.tick a) = 0 := by
    intro acts hacts
    exact List.count_eq_zero.2 fun hmem => hacts _ hmem a rfl
  rw [roundActs, List.count_cons_of_ne (by simp), List.count_append, hbefore, Nat.zero_add]
  · exact hticks
  · intro act hact b
    split at hact
    · rintro rfl
      simp at hact
    · exact absurd hact List.not_mem_nil

theorem Settings.count_tick_actsFrom (settings : Settings) (rounds first : Nat) (a : GuardId) :
    (settings.actsFrom rounds first).count (.tick a) ≤ rounds := by
  induction rounds generalizing first with
  | zero => exact Nat.le_refl 0
  | succ rounds ih =>
    have hround := settings.count_tick_roundActs first a
    have hrest := ih (first + 1)
    rw [actsFrom, List.count_append]
    omega

/-! ## Careers of guards -/

/-- The tasks that a guard has run in either tree, newest first. -/
def tasksRun (a : GuardId) (w : World GuardId Watch) : List String :=
  w.journal.filterMap fun
    | .ran _ b _ task _ => if b = a then some task else none
    | _ => none

/-- The task that a guard has run, if the deed is one of its. -/
def task? (a : GuardId) : GuardId × Deed → Option String
  | (b, .ran task _) => if b = a then some task else none
  | (_, .answered _) => none

theorem tasksRun_eq (a : GuardId) (w : World GuardId Watch) :
    tasksRun a w = (deedsIn w).filterMap (task? a) := by
  rw [tasksRun, deedsIn, List.filterMap_filterMap]
  congr 1
  funext e
  cases e with
  | left t b result =>
    simp only [deed?]
    split <;> rfl
  | _ => rfl

theorem task?_deedsOf (a b : GuardId) (answer : Status) (did : List (String × Status)) :
    (deedsOf b answer did).filterMap (task? a) = if b = a then did.map Prod.fst else [] := by
  rw [deedsOf, ranAll, List.filterMap_cons_none rfl, List.filterMap_map]
  split
  · rename_i hb
    rw [← List.filterMap_eq_map]
    exact List.filterMap_congr fun d _ => if_pos hb
  · rename_i hb
    exact List.filterMap_eq_nil_iff.2 fun d _ => if_neg hb

/-- What an act makes of a guard, and the tasks that the guard runs in it, newest first. -/
inductive Act.Befalls (a : GuardId) : Act → Sentry → List String → Sentry → Prop where
  | aborted (g : Sentry) : Befalls a (.abort a) g [] g.aborted
  | ticked {raised raised' : Bool} {g g' : Sentry} {answer : Status}
      {did : List (String × Status)} : Ticked raised g answer did g' raised' →
      Befalls a (.tick a) g (did.map Prod.fst) g'
  | spared {act : Act} (g : Sentry) : act ≠ .abort a → act ≠ .tick a → Befalls a act g [] g

/-- What acts in a row make of a guard, and the tasks that it runs meanwhile, newest first. -/
inductive Career (a : GuardId) : List Act → Sentry → List String → Sentry → Prop where
  | done (g : Sentry) : Career a [] g [] g
  | next {act : Act} {acts : List Act} {g g' g'' : Sentry} {new later : List String} :
      act.Befalls a g new g' → Career a acts g' later g'' →
      Career a (act :: acts) g (later ++ new) g''

theorem Sentry.aborted_aborted (g : Sentry) : g.aborted.aborted = g.aborted := by
  obtain ⟨duty, board⟩ := g
  cases duty <;> rfl

/-- A guard that is not ticked runs no task, and is left as it is unless it is aborted. -/
theorem Career.unticked {a : GuardId} {acts : List Act} {g g' : Sentry} {new : List String}
    (h : Career a acts g new g') (hacts : .tick a ∉ acts) :
    new = [] ∧ g' = if .abort a ∈ acts then g.aborted else g := by
  induction h with
  | done => exact ⟨rfl, rfl⟩
  | @next act acts g g₁ g' new later hbefalls hcareer ih =>
    obtain ⟨hact, hrest⟩ := List.ne_and_not_mem_of_not_mem_cons hacts
    obtain ⟨rfl, rfl⟩ := ih hrest
    cases hbefalls with
    | aborted => simp [Sentry.aborted_aborted]
    | ticked => exact absurd rfl hact
    | spared _ habort => simp [Ne.symm habort]

namespace Stationed

variable {w : World GuardId Watch} {raised : Bool} {sentries : GuardId → Sentry}
  (routes : Nat → UInt32) {patrolConfig guardConfig : Config}
  (hpatrol : ∀ limit, patrolConfig.effectiveLimit = some limit → 8 ≤ limit)
  (hguard : ∀ limit, guardConfig.effectiveLimit = some limit → 8 ≤ limit)
include hpatrol hguard

/-- Where all guards are posted, any act can be performed. -/
theorem perform (h : Stationed w raised sentries) (act : Act) :
    ∃ w' raised' sentries',
      act.perform (garrison routes patrolConfig guardConfig) w = some w' ∧
      Stationed w' raised' sentries' ∧
      ∀ a, ∃ new, act.Befalls a (sentries a) new (sentries' a) ∧
        tasksRun a w' = new ++ tasksRun a w := by
  cases act with
  | round number =>
    exact ⟨_, raised, sentries, rfl, h.outside rfl rfl (h.calm 0).registry,
      fun a => ⟨[], .spared _ nofun nofun, rfl⟩⟩
  | report number =>
    exact ⟨_, raised, sentries, rfl, h.outside rfl rfl (h.calm 0).registry,
      fun a => ⟨[], .spared _ nofun nofun, rfl⟩⟩
  | raise =>
    obtain ⟨before, r, hupdate, hr⟩ := (h.calm 0).registry.update true
    have hupdate' : (w.registry squadRegistry).update squad (setAlarm true) =
        (.ok (some (.edited before)), r) := hupdate
    refine ⟨w.setRegistry squadRegistry r, true, sentries, by simp only [Act.perform, hupdate'],
      h.outside rfl rfl ?_, fun a => ⟨[], .spared _ nofun nofun, rfl⟩⟩
    rw [World.registry_setRegistry, if_pos rfl]
    exact hr
  | abort b =>
    obtain ⟨w', haborts, hdeeds, h'⟩ := h.abort routes patrolConfig guardConfig b
    refine ⟨w', raised, _, by simp only [Act.perform, haborts], h', fun a => ⟨[], ?_, ?_⟩⟩
    · by_cases ha : a = b
      · subst ha
        rw [Function.update_self]
        exact .aborted _
      · rw [Function.update_of_ne ha]
        exact .spared _ (fun heq => ha (Act.abort.inj heq).symm) nofun
    · rw [tasksRun_eq, tasksRun_eq, hdeeds]
      rfl
  | tick b =>
    obtain ⟨answer, did, g, raised', w', hticks, hticked, hdeeds, h'⟩ :=
      h.tick_does routes hpatrol hguard b
    refine ⟨w', raised', _, by simp only [Act.perform, hticks], h', fun a => ?_⟩
    rw [tasksRun_eq, tasksRun_eq, hdeeds, List.filterMap_append, task?_deedsOf]
    by_cases ha : a = b
    · subst ha
      rw [Function.update_self, if_pos rfl]
      exact ⟨_, .ticked hticked, rfl⟩
    · rw [Function.update_of_ne ha, if_neg (Ne.symm ha)]
      exact ⟨[], .spared _ nofun (fun heq => ha (Act.tick.inj heq).symm), rfl⟩

/-- Where all guards are posted, any acts can be performed in a row. -/
theorem performAll (h : Stationed w raised sentries) (acts : List Act) :
    ∃ w' raised' sentries',
      Patrol.performAll (garrison routes patrolConfig guardConfig) acts w = some w' ∧
      Stationed w' raised' sentries' ∧
      ∀ a, ∃ new, Career a acts (sentries a) new (sentries' a) ∧
        tasksRun a w' = new ++ tasksRun a w := by
  induction acts generalizing w raised sentries with
  | nil => exact ⟨w, raised, sentries, rfl, h, fun a => ⟨[], .done _, rfl⟩⟩
  | cons act acts ih =>
    obtain ⟨w₁, raised₁, sentries₁, hperforms, h₁, hbefalls⟩ := h.perform routes hpatrol hguard act
    obtain ⟨w', raised', sentries', hperformsAll, h', hcareers⟩ := ih h₁
    refine ⟨w', raised', sentries', ?_, h', fun a => ?_⟩
    · rw [Patrol.performAll, hperforms]
      exact hperformsAll
    · obtain ⟨new, hnew, htasks⟩ := hbefalls a
      obtain ⟨later, hlater, htasks'⟩ := hcareers a
      exact ⟨later ++ new, .next hnew hlater, by rw [htasks', htasks, List.append_assoc]⟩

end Stationed

end TickTree.Patrol
