import Mathlib.Data.List.Nodup
import TickTree.Proofs.Bounds
import TickTree.Proofs.Duties

/-!
# Squads

Between two rounds a simulation is in order (`Simulation.InOrder`): no tick has failed, the squad's
board says whether the last round has raised the alarm, and the guards respond just if it has.

Where all guards are posted, a tick is as the duty of the guard says (`Stationed.tick`), so the
ticks of a round are a roll that the guards answer one after the other (`Roll`). The guards of a
roll all fare alike (`Routine`): those that are ready respond to an alarm, those that respond stand
down, and without an alarm none responds. Each round is a roll of one of these three kinds, after
the guards were aborted if it raises the alarm, and so it leaves the simulation in order.
-/

namespace TickTree.Patrol

/-! ## Guards in worlds -/

/-- What the guards did, newest first. -/
def deedsIn (w : World GuardId Watch) : List (GuardId × Deed) := w.journal.filterMap deed?

/-- How the ticks of the guards came out, newest first. -/
def answersIn (w : World GuardId Watch) : List (GuardId × Except RunError Status) :=
  w.journal.filterMap fun
    | .left t a result => if t = guardTree then some (a, result) else none
    | _ => none

/-- How a tick came out, if the deed is one. -/
def answer? : GuardId × Deed → Option (GuardId × Except RunError Status)
  | (a, .answered result) => some (a, result)
  | (_, .ran ..) => none

theorem answersIn_eq (w : World GuardId Watch) :
    answersIn w = (deedsIn w).filterMap answer? := by
  rw [answersIn, deedsIn, List.filterMap_filterMap]
  congr 1
  funext e
  cases e with
  | left t a result =>
    simp only [deed?]
    split <;> rfl
  | _ => rfl

theorem answer?_deedsOf (a : GuardId) (answer : Status) (did : List (String × Status)) :
    (deedsOf a answer did).filterMap answer? = [(a, .ok answer)] := by
  have hran : (ranAll a did).filterMap answer? = [] := by
    simp [ranAll, List.filterMap_map, answer?]
  simp [deedsOf, answer?, hran]

theorem sure_deedsOf {a b : GuardId} {answer : Status} {did : List (String × Status)}
    {task : String} {e : TaskError} : (b, Deed.ran task (.error e)) ∉ deedsOf a answer did := by
  simp [deedsOf, ranAll]

/-- The guards are posted in a world, the alarm is as said, and no task has failed with an
error. -/
structure Stationed (w : World GuardId Watch) (raised : Bool) (sentries : GuardId → Sentry) :
    Prop where
  calm : ∀ a, Calm (w.outlook a) raised
  posted : ∀ a, Posted (w.outlook a) (sentries a)
  sure : ∀ a task e, (a, Deed.ran task (.error e)) ∉ deedsIn w

namespace Stationed

variable {w w' : World GuardId Watch} {raised raised' : Bool} {sentries : GuardId → Sentry}

/-- After something that a guard did, seen from its vantage. -/
theorem shown (h : Stationed w raised sentries) {a : GuardId} {o : Outlook} {g : Sentry}
    {new : List (GuardId × Deed)} (hsure : ∀ b task e, (b, Deed.ran task (.error e)) ∉ new)
    (hcalm : Calm o raised') (hposted : Posted o g)
    (hshows : (following a fun t b => w.agent? t b).Shows (new ++ deedsIn w) o w') :
    Stationed w' raised' (Function.update sentries a g) := by
  have hlook : w'.outlook a = o := hshows.outlook
  subst hlook
  refine ⟨fun _ => ⟨hcalm.idle, hcalm.sound, hcalm.registry⟩, fun b => ?_, fun b task e hmem => ?_⟩
  · by_cases hb : b = a
    · subst hb
      rwa [Function.update_self]
    · rw [Function.update_of_ne hb]
      refine (h.posted b).congr fun t => ?_
      exact congrArg (·.getD {}) (hshows.others t b hb)
  · rw [deedsIn, show w'.journal.filterMap deed? = _ from hshows.seen] at hmem
    rcases List.mem_append.1 hmem with hnew | hold
    · exact hsure b task e hnew
    · exact h.sure b task e hold

/-- After something that happened outside the trees. -/
theorem outside (h : Stationed w raised sentries) (htrees : w'.trees = w.trees)
    (hdeeds : deedsIn w' = deedsIn w) (hraises : Raises (w'.registry squadRegistry) raised') :
    Stationed w' raised' sentries := by
  have htree : w'.tree = w.tree := by
    funext t
    rw [World.tree, World.tree, htrees]
  have hagent : ∀ t a, w'.agent? t a = w.agent? t a := by
    intro t a
    rw [World.agent?, World.agent?, htree]
  refine ⟨fun a => ⟨fun t => ?_, fun t => ?_, hraises⟩, fun a => ?_, hdeeds ▸ h.sure⟩
  · exact (congrArg TreeState.running (congrFun htree t)).trans ((h.calm a).idle t)
  · exact (congrArg TreeState.poisoned (congrFun htree t)).trans ((h.calm a).sound t)
  · exact (h.posted a).congr fun t => congrArg (·.getD {}) (hagent t a)

theorem shows (w : World GuardId Watch) (a : GuardId) :
    (following a fun t b => w.agent? t b).Shows (deedsIn w) (w.outlook a) w :=
  ⟨rfl, fun _ _ _ => rfl, rfl⟩

section

variable (routes : Nat → UInt32)

/-- A tick of a guard is as its duty says, and what shows of it are its deeds. -/
theorem tick_does {patrolConfig guardConfig : Config}
    (hpatrol : ∀ limit, patrolConfig.effectiveLimit = some limit → 8 ≤ limit)
    (hguard : ∀ limit, guardConfig.effectiveLimit = some limit → 8 ≤ limit)
    (h : Stationed w raised sentries) (a : GuardId) :
    ∃ answer did g raised' w',
      (garrison routes patrolConfig guardConfig).operate (.run guardTree a) w =
        .done (.ok answer) w' ∧
      Ticked raised (sentries a) answer did g raised' ∧
      deedsIn w' = deedsOf a answer did ++ deedsIn w ∧
      Stationed w' raised' (Function.update sentries a g) := by
  have hcomes : (following a fun t b => w.agent? t b).Comes (deedsIn w) (w.outlook a)
      ((garrison routes patrolConfig guardConfig).serve 11 (.run guardTree a)) _ :=
    tick_comes hpatrol hguard (h.calm a) (h.posted a)
  obtain ⟨_, _, o, w', hserve, ⟨answer, did, g, raised', hticked, rfl, rfl, hcalm, hposted⟩,
    hshows⟩ := hcomes w (shows w a)
  have hample : 11 ≤ Forest.ample := by decide
  exact ⟨answer, did, g, raised', w', Forest.serve_mono _ hample _ _ _ _ hserve, hticked,
    hshows.seen, h.shown (fun _ _ _ => sure_deedsOf) hcalm hposted hshows⟩

/-- A tick of a guard is as its duty says. -/
theorem tick {patrolConfig guardConfig : Config}
    (hpatrol : ∀ limit, patrolConfig.effectiveLimit = some limit → 8 ≤ limit)
    (hguard : ∀ limit, guardConfig.effectiveLimit = some limit → 8 ≤ limit)
    (h : Stationed w raised sentries) (a : GuardId) :
    ∃ answer did g raised' w',
      (garrison routes patrolConfig guardConfig).operate (.run guardTree a) w =
        .done (.ok answer) w' ∧
      Ticked raised (sentries a) answer did g raised' ∧
      answersIn w' = (a, .ok answer) :: answersIn w ∧
      Stationed w' raised' (Function.update sentries a g) := by
  obtain ⟨answer, did, g, raised', w', hticks, hticked, hdeeds, h'⟩ :=
    h.tick_does routes hpatrol hguard a
  refine ⟨answer, did, g, raised', w', hticks, hticked, ?_, h'⟩
  rw [answersIn_eq, hdeeds, List.filterMap_append, answer?_deedsOf, ← answersIn_eq]
  rfl

/-- An abort makes a guard ready, and nothing shows of it. -/
theorem abort (patrolConfig guardConfig : Config) (h : Stationed w raised sentries)
    (a : GuardId) :
    ∃ w', (garrison routes patrolConfig guardConfig).operate (.abort guardTree a) w =
        .done () w' ∧
      deedsIn w' = deedsIn w ∧
      Stationed w' raised (Function.update sentries a (sentries a).aborted) := by
  have hcomes : (following a fun t b => w.agent? t b).Comes (deedsIn w) (w.outlook a)
      ((garrison routes patrolConfig guardConfig).serve 2 (.abort guardTree a)) _ :=
    abort_comes (h.calm a) (h.posted a)
  obtain ⟨_, _, o, w', hserve, ⟨rfl, hcalm, hposted⟩, hshows⟩ := hcomes w (shows w a)
  have hample : 2 ≤ Forest.ample := by decide
  exact ⟨w', Forest.serve_mono _ hample _ _ _ _ hserve, hshows.seen,
    h.shown (fun _ _ _ => List.not_mem_nil) hcalm hposted hshows⟩

end

end Stationed

/-! ## Rolls -/

/-- Guards that are ticked one after the other, with their answers: what becomes of the alarm and
of all guards. -/
inductive Roll : Bool → (GuardId → Sentry) → List (GuardId × Status) →
    Bool → (GuardId → Sentry) → Prop where
  | done (raised : Bool) (sentries : GuardId → Sentry) : Roll raised sentries [] raised sentries
  | next {raised raised' raised'' : Bool} {sentries sentries' : GuardId → Sentry} {a : GuardId}
      {answer : Status} {did : List (String × Status)} {g : Sentry}
      {answers : List (GuardId × Status)} :
      Ticked raised (sentries a) answer did g raised' →
      Roll raised' (Function.update sentries a g) answers raised'' sentries' →
      Roll raised sentries ((a, answer) :: answers) raised'' sentries'

/-- How the guards of a roll all fare. -/
structure Routine where
  /-- What there is of an alarm before each tick. -/
  start : Bool → Prop
  /-- The duty of the guard before. -/
  before : Duty → Prop
  /-- How the tick comes out. -/
  answering : Status → Prop
  /-- Whether there is an alarm after each tick; just then the guard responds. -/
  alarmed : Bool
  leads : ∀ ⦃raised g answer did g' raised'⦄, Ticked raised g answer did g' raised' →
    start raised → before g.duty →
      answering answer ∧ (g'.duty = .responding ↔ alarmed = true) ∧ raised' = alarmed
  again : start alarmed
  sure : ¬answering .failure

namespace Routine

/-- Guards that are ready respond to an alarm. -/
def responding : Routine where
  start := (· = true)
  before := (· = .ready)
  answering := (· = .running)
  alarmed := true
  leads := by
    intro raised g answer did g' raised' hticked hstart hbefore
    cases hticked with
    | alarmed board => exact ⟨rfl, by simp, rfl⟩
    | stoodDown | arrived => exact absurd hbefore nofun
    | rested | setOut | stayed => exact absurd hstart nofun
  again := rfl
  sure := nofun

/-- Guards that respond stand down, and the first to do so clears the alarm. -/
def standingDown : Routine where
  start _ := True
  before := (· = .responding)
  answering := (· = .success)
  alarmed := false
  leads := by
    intro raised g answer did g' raised' hticked _ hbefore
    cases hticked with
    | stoodDown raised board => exact ⟨rfl, by simp, rfl⟩
    | alarmed | rested | setOut | stayed | arrived => exact absurd hbefore nofun
  again := trivial
  sure := nofun

/-- Without an alarm no guard begins to respond. -/
def patrolling : Routine where
  start := (· = false)
  before := (· ≠ .responding)
  answering := (· ≠ .failure)
  alarmed := false
  leads := by
    intro raised g answer did g' raised' hticked hstart hbefore
    cases hticked with
    | alarmed => exact absurd hstart nofun
    | stoodDown => exact absurd rfl hbefore
    | rested | setOut | stayed => exact ⟨nofun, by simp, rfl⟩
    | arrived => exact ⟨nofun, by simp, hstart⟩
  again := rfl
  sure h := h rfl

end Routine

namespace Roll

variable {raised raised' : Bool} {sentries sentries' : GuardId → Sentry}
  {answers : List (GuardId × Status)}

theorem other (h : Roll raised sentries answers raised' sentries') {a : GuardId}
    (ha : a ∉ answers.map Prod.fst) : sentries' a = sentries a := by
  induction h with
  | done => rfl
  | next _ _ ih =>
    obtain ⟨hne, hrest⟩ := List.ne_and_not_mem_of_not_mem_cons ha
    rw [ih hrest, Function.update_of_ne hne]

/-- The guards of a roll all fare as the routine has it. -/
theorem follows (R : Routine) (h : Roll raised sentries answers raised' sentries')
    (hnodup : (answers.map Prod.fst).Nodup) (hstart : R.start raised)
    (hbefore : ∀ a ∈ answers.map Prod.fst, R.before (sentries a).duty) :
    (∀ x ∈ answers, R.answering x.2) ∧
      (∀ a ∈ answers.map Prod.fst, (sentries' a).duty = .responding ↔ R.alarmed = true) ∧
      (answers ≠ [] → raised' = R.alarmed) := by
  induction h with
  | done => exact ⟨nofun, nofun, fun h => absurd rfl h⟩
  | @next raised raised₁ raised' sentries sentries' a answer did g answers hticked hroll ih =>
    obtain ⟨hanswer, hduty, rfl⟩ := R.leads hticked hstart (hbefore a List.mem_cons_self)
    obtain ⟨hfirst, hnodup⟩ := List.nodup_cons.1 hnodup
    have hrest : ∀ b ∈ answers.map Prod.fst, R.before (Function.update sentries a g b).duty := by
      intro b hb
      have hne : b ≠ a := fun heq => hfirst (heq ▸ hb)
      rw [Function.update_of_ne hne]
      exact hbefore b (List.mem_cons_of_mem _ hb)
    obtain ⟨hanswers, hduties, hlast⟩ := ih hnodup R.again hrest
    refine ⟨List.forall_mem_cons.2 ⟨hanswer, hanswers⟩, List.forall_mem_cons.2 ⟨?_, hduties⟩,
      fun _ => ?_⟩
    · rw [hroll.other hfirst, Function.update_self]
      exact hduty
    · cases hroll with
      | done => rfl
      | next => exact hlast nofun

end Roll

/-! ## Tallies -/

/-- A tally with more ticks. -/
def Tally.recordAll (t : Tally) (answers : List (GuardId × Status)) : Tally :=
  answers.foldl (fun t x => t.record x.2) t

/-- Ticks that do not fail are counted as such. -/
theorem Tally.recordAll_of_ne_failure (t : Tally) {answers : List (GuardId × Status)}
    (h : ∀ x ∈ answers, x.2 ≠ .failure) :
    (t.recordAll answers).failed = t.failed ∧
      (t.recordAll answers).succeeded + (t.recordAll answers).running =
        t.succeeded + t.running + answers.length := by
  induction answers generalizing t with
  | nil => exact ⟨rfl, rfl⟩
  | cons x answers ih =>
    obtain ⟨hx, hrest⟩ := List.forall_mem_cons.1 h
    obtain ⟨hfailed, hcount⟩ := ih (t.record x.2) hrest
    have hfailed' : (t.record x.2).failed = t.failed := by
      cases hstatus : x.2 with
      | failure => exact absurd hstatus hx
      | success | running => rfl
    have hcount' : (t.record x.2).succeeded + (t.record x.2).running =
        t.succeeded + t.running + 1 := by
      cases hstatus : x.2 with
      | failure => exact absurd hstatus hx
      | success | running => simp only [Tally.record]; omega
    refine ⟨hfailed.trans hfailed', hcount.trans ?_⟩
    rw [hcount', List.length_cons]
    omega

/-! ## Guards by number -/

/-- So many guards, in the order of their numbers from the first on. -/
def numbered (guards first : Nat) : List GuardId := (List.range' first guards).map UInt32.ofNat

theorem length_numbered (guards first : Nat) : (numbered guards first).length = guards := by
  simp [numbered]

theorem nodup_numbered {guards : Nat} (h : guards < UInt32.size) : (numbered guards 0).Nodup := by
  refine List.Nodup.map_on (fun m hm n hn heq => ?_) List.nodup_range'
  have hm' : m < UInt32.size := by
    have := List.mem_range'_1.1 hm
    omega
  have hn' : n < UInt32.size := by
    have := List.mem_range'_1.1 hn
    omega
  rw [← UInt32.toNat_ofNat_of_lt' hm', heq, UInt32.toNat_ofNat_of_lt' hn']

theorem mem_numbered {guards : Nat} {a : GuardId} (h : a.toNat < guards) : a ∈ numbered guards 0 :=
  List.mem_map.2 ⟨a.toNat, List.mem_range'_1.2 ⟨Nat.zero_le _, by omega⟩, UInt32.ofNat_toNat⟩

/-! ## Rounds -/

/-- Whether the last of so many rounds has raised the alarm. -/
def Settings.alarmAfter (settings : Settings) : (rounds : Nat) → Bool
  | 0 => false
  | round + 1 => settings.alarmAt round

/-- A guard is suspended on the task that responds to the alarm. -/
def Responds (F : Forest GuardId Watch) (w : World GuardId Watch) (a : GuardId) : Prop :=
  ∃ s task, w.agent? guardTree a = some s ∧ (F.tree guardTree).awaited s = some (.task task) ∧
    task.name = "respond"

theorem responds_iff {routes : Nat → UInt32} {patrolConfig guardConfig : Config}
    {w : World GuardId Watch} {a : GuardId} {g : Sentry} (h : Posted (w.outlook a) g) :
    Responds (garrison routes patrolConfig guardConfig) w a ↔ g.duty = .responding := by
  have hstanding := h.standing
  obtain ⟨hcursor, hpaused⟩ := Prod.mk.inj hstanding
  constructor
  · rintro ⟨s, task, hagent, hawaited, -⟩
    have hs : (w.outlook a).state guardTree = s := congrArg (·.getD {}) hagent
    rw [hs] at hcursor hpaused
    cases hduty : g.duty with
    | responding => rfl
    | ready =>
      rw [hduty] at hpaused
      rw [Tree.awaited_unpaused hpaused] at hawaited
      cases hawaited
    | walking route =>
      rw [hduty] at hcursor hpaused
      rw [Tree.awaited_paused (i := ⟨.subTree ⟨patrolTree, 7⟩, 5, 7⟩) hpaused
        (by rw [hcursor]; rfl)] at hawaited
      cases hawaited
  · intro hduty
    rw [hduty] at hcursor hpaused
    refine ⟨_, responding, agent_of_paused hpaused, ?_, rfl⟩
    exact Tree.awaited_paused (i := ⟨.task responding, 6, 2⟩) hpaused (by rw [hcursor]; rfl)

theorem Sentry.duty_aborted (g : Sentry) : g.aborted.duty = .ready := by
  rw [aborted]
  split <;> rfl

namespace Simulation

/-- What holds of a simulation between two rounds, after so many rounds. -/
structure InOrder (F : Forest GuardId Watch) (settings : Settings) (rounds : Nat)
    (s : Simulation) : Prop where
  /-- No tick has failed. -/
  failed : s.tally.failed = 0
  /-- In each round each guard was ticked. -/
  counted : s.tally.succeeded + s.tally.running = settings.agents.toNat * rounds
  /-- The squad's board says whether the last round has raised the alarm. -/
  alarm : ∃ board, (s.world.registry squadRegistry).read squad = .ok (some board) ∧
    board.get? alarm = some (.bool (settings.alarmAfter rounds))
  /-- The guards respond just if it has. -/
  responding : ∀ a, a.toNat < settings.agents.toNat →
    (Responds F s.world a ↔ settings.alarmAfter rounds = true)
  /-- No task has failed with an error. -/
  sure : ∀ t a index task e, Event.ran t a index task (.error e) ∉ s.world.journal

/-- A simulation between two rounds, and its guards. -/
structure Mustered (settings : Settings) (rounds : Nat) (s : Simulation)
    (sentries : GuardId → Sentry) : Prop where
  stationed : Stationed s.world (settings.alarmAfter rounds) sentries
  duties : ∀ a ∈ numbered settings.agents.toNat 0,
    ((sentries a).duty = .responding ↔ settings.alarmAfter rounds = true)
  failed : s.tally.failed = 0
  counted : s.tally.succeeded + s.tally.running = settings.agents.toNat * rounds

section

variable (routes : Nat → UInt32) (patrolConfig guardConfig : Config) {settings : Settings}
  {rounds : Nat} {s : Simulation} {raised : Bool} {sentries : GuardId → Sentry}

theorem Mustered.inOrder (h : Mustered settings rounds s sentries) :
    InOrder (garrison routes patrolConfig guardConfig) settings rounds s where
  failed := h.failed
  counted := h.counted
  alarm := by
    obtain ⟨hsound, board, hboard, halarm⟩ := (h.stationed.calm 0).registry
    refine ⟨board, ?_, halarm⟩
    change (s.world.registry squadRegistry).poisoned = false at hsound
    rw [Registry.read, hsound, if_neg Bool.false_ne_true]
    exact congrArg Except.ok hboard
  responding a ha := (responds_iff (h.stationed.posted a)).trans (h.duties a (mem_numbered ha))
  sure t a index task e hmem :=
    h.stationed.sure a task e (List.mem_filterMap.2 ⟨_, hmem, rfl⟩)

/-- Guards that were all aborted are ready. -/
theorem abortAll_readies {w : World GuardId Watch} (h : Stationed w raised sentries)
    (guards first : Nat) :
    ∃ w' sentries', abortAll (garrison routes patrolConfig guardConfig) guards first w =
        .done () w' ∧ Stationed w' raised sentries' ∧
      ∀ a, a ∈ numbered guards first ∨ (sentries a).duty = .ready →
        (sentries' a).duty = .ready := by
  induction guards generalizing first w sentries with
  | zero => exact ⟨w, sentries, rfl, h, fun a ha => ha.resolve_left nofun⟩
  | succ guards ih =>
    obtain ⟨w₁, haborted, -, h₁⟩ := h.abort routes patrolConfig guardConfig (UInt32.ofNat first)
    obtain ⟨w', sentries', hall, h', hready⟩ := ih h₁ (first + 1)
    refine ⟨w', sentries', ?_, h', fun a ha => hready a ?_⟩
    · simp only [abortAll, haborted, Outcome.bind_done, hall]
    · by_cases heq : a = UInt32.ofNat first
      · subst heq
        rw [Function.update_self]
        exact .inr (Sentry.duty_aborted _)
      · rw [Function.update_of_ne heq]
        exact ha.imp_left fun hmem => (List.mem_cons.1 hmem).resolve_left heq

theorem raiseAlarm_readies (h : Stationed s.world raised sentries) (guards round : Nat) :
    ∃ s' sentries',
      raiseAlarm (garrison routes patrolConfig guardConfig) guards round s = (s', none) ∧
      s'.tally = s.tally ∧ Stationed s'.world true sentries' ∧
      ∀ a ∈ numbered guards 0, (sentries' a).duty = .ready := by
  obtain ⟨before, r, hupdate, hr⟩ := (h.calm 0).registry.update true
  have hset : Stationed (s.world.setRegistry squadRegistry r) true sentries := by
    refine h.outside rfl rfl ?_
    rw [World.registry_setRegistry, if_pos rfl]
    exact hr
  obtain ⟨w', sentries', hall, h', hready⟩ :=
    abortAll_readies routes patrolConfig guardConfig hset guards 0
  refine ⟨note { s with world := w' } "alarm raised" [("round", toString round)], sentries', ?_,
    rfl, h'.outside rfl rfl (h'.calm 0).registry, fun a ha => hready a (.inl ha)⟩
  have hupdate' : (s.world.registry squadRegistry).update squad (setAlarm true) =
      (.ok (some (.edited before)), r) := hupdate
  simp only [raiseAlarm, hupdate', hall]

section

variable {patrolConfig guardConfig}
  (hpatrol : ∀ limit, patrolConfig.effectiveLimit = some limit → 8 ≤ limit)
  (hguard : ∀ limit, guardConfig.effectiveLimit = some limit → 8 ≤ limit)
include hpatrol hguard

/-- Ticking guards is calling the roll. -/
theorem tickAll_rolls (h : Stationed s.world raised sentries) (round guards first : Nat) :
    ∃ answers raised' sentries' s',
      tickAll (garrison routes patrolConfig guardConfig) round guards first s = (s', none) ∧
      answers.map Prod.fst = numbered guards first ∧
      Roll raised sentries answers raised' sentries' ∧ s'.tally = s.tally.recordAll answers ∧
      answersIn s'.world = (answers.map fun x => (x.1, .ok x.2)).reverse ++ answersIn s.world ∧
      Stationed s'.world raised' sentries' := by
  induction guards generalizing first s raised sentries with
  | zero => exact ⟨[], raised, sentries, s, rfl, rfl, .done _ _, rfl, rfl, h⟩
  | succ guards ih =>
    obtain ⟨answer, did, g, raised₁, w₁, hticks, hticked, hanswer, h₁⟩ :=
      h.tick routes hpatrol hguard (UInt32.ofNat first)
    obtain ⟨answers, raised', sentries', s', hall, hnumbers, hroll, htally, hanswers, h'⟩ :=
      ih (s := ⟨w₁, s.tally.record answer⟩) h₁ (first + 1)
    refine ⟨(UInt32.ofNat first, answer) :: answers, raised', sentries', s', ?_,
      congrArg (UInt32.ofNat first :: ·) hnumbers, .next hticked hroll, htally, ?_, h'⟩
    · simp only [tickAll, hticks, hall]
    · rw [hanswers, List.map_cons, List.reverse_cons, List.append_assoc]
      exact congrArg _ hanswer

/-- If all guards fare as a routine has it when the roll is called, they are mustered. -/
theorem tickAll_musters (R : Routine) (hround : R.alarmed = settings.alarmAt rounds)
    (hagents : 1 ≤ settings.agents.toNat) (hfailed : s.tally.failed = 0)
    (hcounted : s.tally.succeeded + s.tally.running = settings.agents.toNat * rounds)
    (h : Stationed s.world raised sentries) (hstart : R.start raised)
    (hbefore : ∀ a ∈ numbered settings.agents.toNat 0, R.before (sentries a).duty) :
    ∃ s' sentries', ∃ answers : List (GuardId × Status),
      tickAll (garrison routes patrolConfig guardConfig) rounds settings.agents.toNat 0 s =
        (s', none) ∧
      Mustered settings (rounds + 1) s' sentries' ∧
      answers.map Prod.fst = numbered settings.agents.toNat 0 ∧
      (∀ x ∈ answers, R.answering x.2) ∧
      answersIn s'.world = (answers.map fun x => (x.1, .ok x.2)).reverse ++ answersIn s.world := by
  obtain ⟨answers, raised', sentries', s', hall, hnumbers, hroll, htally, hanswers, h'⟩ :=
    tickAll_rolls routes hpatrol hguard h rounds settings.agents.toNat 0
  have hlength : answers.length = settings.agents.toNat := by
    rw [← List.length_map, hnumbers, length_numbered]
  have hnonempty : answers ≠ [] := List.ne_nil_of_length_pos (hlength ▸ hagents)
  obtain ⟨hanswering, hduties, hlast⟩ := hroll.follows R
    (hnumbers ▸ nodup_numbered settings.agents.toNat_lt) hstart (hnumbers ▸ hbefore)
  have hne : ∀ x ∈ answers, x.2 ≠ .failure := fun x hx heq => R.sure (heq ▸ hanswering x hx)
  obtain ⟨hfailed', hcounted'⟩ := s.tally.recordAll_of_ne_failure hne
  rw [hlast hnonempty, hround] at h'
  refine ⟨s', sentries', answers, hall, ⟨h', fun a ha => ?_, ?_, ?_⟩, hnumbers, hanswering,
    hanswers⟩
  · rw [Settings.alarmAfter, ← hround]
    exact hduties a (hnumbers ▸ ha)
  · rw [htally, hfailed', hfailed]
  · rw [htally, hcounted', hcounted, hlength, Nat.mul_succ]

/-- After a round the guards are mustered again, and those that were responding have stood down
if the round has not raised the alarm. -/
theorem playRound_musters (hagents : 1 ≤ settings.agents.toNat)
    (h : Mustered settings rounds s sentries) :
    ∃ s' sentries', playRound (garrison routes patrolConfig guardConfig) settings rounds s =
        (s', none) ∧
      Mustered settings (rounds + 1) s' sentries' ∧
      (settings.alarmAfter rounds = true → settings.alarmAt rounds = false →
        answersIn s'.world = ((numbered settings.agents.toNat 0).map fun a =>
          (a, .ok .success)).reverse ++ answersIn s.world) := by
  obtain ⟨s₀, hs₀⟩ : ∃ s₀ : Simulation,
      { s with world := { s.world with ambient := ⟨UInt32.ofNat rounds⟩ } } = s₀ := ⟨_, rfl⟩
  have h₀ : Stationed s₀.world (settings.alarmAfter rounds) sentries :=
    hs₀ ▸ h.stationed.outside rfl rfl (h.stationed.calm 0).registry
  have htally₀ : s₀.tally = s.tally := hs₀ ▸ rfl
  have hanswers₀ : answersIn s₀.world = answersIn s.world := hs₀ ▸ rfl
  cases halarm : settings.alarmAt rounds with
  | true =>
    obtain ⟨s₁, sentries₁, hraise, htally, h₁, hready⟩ :=
      raiseAlarm_readies routes patrolConfig guardConfig h₀ settings.agents.toNat rounds
    have htally₁ : s₁.tally = s.tally := htally.trans htally₀
    obtain ⟨s', sentries', answers, hall, h', -⟩ :=
      tickAll_musters routes hpatrol hguard .responding halarm.symm hagents
        (htally₁ ▸ h.failed) (htally₁ ▸ h.counted) h₁ rfl hready
    refine ⟨s', sentries', ?_, h', fun _ hnot => nomatch hnot⟩
    simp only [playRound, hs₀, halarm, if_true, hraise, hall]
  | false =>
    have hplays : playRound (garrison routes patrolConfig guardConfig) settings rounds s =
        tickAll (garrison routes patrolConfig guardConfig) rounds settings.agents.toNat 0 s₀ := by
      simp only [playRound, hs₀, halarm, Bool.false_eq_true, if_false]
    rw [hplays]
    cases hafter : settings.alarmAfter rounds with
    | true =>
      obtain ⟨s', sentries', answers, hall, h', hnumbers, hanswering, hanswers⟩ :=
        tickAll_musters routes hpatrol hguard .standingDown halarm.symm hagents
          (htally₀ ▸ h.failed) (htally₀ ▸ h.counted) h₀ trivial
          fun a ha => (h.duties a ha).2 hafter
      refine ⟨s', sentries', hall, h', fun _ _ => ?_⟩
      rw [hanswers, hanswers₀, ← hnumbers, List.map_map]
      congr 2
      exact List.map_congr_left fun x hx => by rw [Function.comp_apply, hanswering x hx]
    | false =>
      obtain ⟨s', sentries', answers, hall, h', -⟩ :=
        tickAll_musters routes hpatrol hguard .patrolling halarm.symm hagents
          (htally₀ ▸ h.failed) (htally₀ ▸ h.counted) h₀ hafter
          fun a ha hduty => Bool.false_ne_true (hafter.symm.trans ((h.duties a ha).1 hduty))
      exact ⟨s', sentries', hall, h', fun hnot => nomatch hnot⟩

end

/-- The last of several rounds is played after the others. -/
theorem playRounds_succ {F : Forest GuardId Watch} {first : Nat} {s' : Simulation}
    (h : playRounds F settings rounds first s = (s', none)) :
    playRounds F settings (rounds + 1) first s = playRound F settings (first + rounds) s' := by
  induction rounds generalizing first s with
  | zero =>
    have hs : s = s' := congrArg Prod.fst h
    obtain ⟨⟨s₁, breakdown⟩, hplay⟩ : ∃ p, playRound F settings first s' = p := ⟨_, rfl⟩
    rw [playRounds, hs, Nat.add_zero first, hplay]
    cases breakdown <;> rfl
  | succ rounds ih =>
    obtain ⟨⟨s₁, breakdown⟩, hplay⟩ : ∃ p, playRound F settings first s = p := ⟨_, rfl⟩
    rw [playRounds, hplay] at h ⊢
    cases breakdown with
    | some b => cases h
    | none =>
      have hlast := ih h
      rwa [Nat.succ_add_eq_add_succ] at hlast

theorem begin_musters (message : String) (fields : List (String × String)) :
    Mustered settings 0 (begin.note message fields) fun _ => {} where
  stationed := by
    refine ⟨fun a => ⟨fun _ => rfl, fun _ => rfl, rfl, ?_⟩, fun a => ⟨rfl, rfl, rfl, rfl, nofun⟩,
      fun a task e hmem => nomatch hmem⟩
    exact ⟨(∅ : Blackboard).set Patrol.alarm (.bool false), rfl, rfl⟩
  duties _ _ := ⟨nofun, nofun⟩
  failed := rfl
  counted := (Nat.mul_zero _).symm

variable {patrolConfig guardConfig} in
/-- Rounds leave the guards mustered. -/
theorem playRounds_musters
    (hpatrol : ∀ limit, patrolConfig.effectiveLimit = some limit → 8 ≤ limit)
    (hguard : ∀ limit, guardConfig.effectiveLimit = some limit → 8 ≤ limit)
    (hagents : 1 ≤ settings.agents.toNat) (h : Mustered settings 0 s sentries) (rounds : Nat) :
    ∃ s' sentries',
      playRounds (garrison routes patrolConfig guardConfig) settings rounds 0 s = (s', none) ∧
      Mustered settings rounds s' sentries' := by
  induction rounds with
  | zero => exact ⟨s, sentries, rfl, h⟩
  | succ rounds ih =>
    obtain ⟨s₁, sentries₁, hplays, h₁⟩ := ih
    obtain ⟨s', sentries', hround, h', -⟩ :=
      playRound_musters routes hpatrol hguard hagents h₁
    refine ⟨s', sentries', ?_, h'⟩
    rw [playRounds_succ hplays, Nat.zero_add]
    exact hround

end

/-- Simulations play to their end, and they are in order after any number of rounds. If the last
round has raised the alarm and the next does not, then in the next every guard succeeds. -/
theorem plays_through (routes : Nat → UInt32) (settings : Settings)
    (hagents : 1 ≤ settings.agents.toNat)
    (hlimit : ∀ limit, settings.tree.effectiveLimit = some limit → 8 ≤ limit) :
    (simulateOn routes settings).exitCode = 0 ∧
    ∃ F, forestOn routes settings.tree settings.tree = .ok F ∧ ∀ rounds, ∃ s,
      playRounds F settings rounds 0
        (begin.note "starting simulation" [("config", settings.text)]) = (s, none) ∧
      s.InOrder F settings rounds ∧
      (settings.alarmAfter rounds = true → settings.alarmAt rounds = false →
        ∃ s', playRound F settings rounds s = (s', none) ∧
          answersIn s'.world = ((numbered settings.agents.toNat 0).map fun a =>
            (a, .ok .success)).reverse ++ answersIn s.world) := by
  have hbegin : Mustered settings 0
      (begin.note "starting simulation" [("config", settings.text)]) fun _ => {} :=
    begin_musters _ _
  have hplays := playRounds_musters routes hlimit hlimit hagents hbegin
  refine ⟨?_, _, forestOn_eq _ _ _, fun rounds => ?_⟩
  · obtain ⟨s, _, hall, -⟩ := hplays settings.ticks.toNat
    simp only [simulateOn, forestOn_eq, play, hall]
  · obtain ⟨s, sentries, hall, h⟩ := hplays rounds
    refine ⟨s, hall, h.inOrder _ _ _, fun hafter hat => ?_⟩
    obtain ⟨s', sentries', hround, -, hanswers⟩ :=
      playRound_musters routes hlimit hlimit hagents h
    exact ⟨s', hround, hanswers hafter hat⟩

/-- Two guards that must respond in every second round, with no step to spare. -/
theorem plays_through_two_guards :
    let settings : Settings := { agents := 2, ticks := 5, stepLimit := some 8, alarmEvery := 2 }
    (simulateOn (fun _ => 0) settings).exitCode = 0 ∧
    ∃ F s s', forestOn (fun _ => 0) settings.tree settings.tree = .ok F ∧
      playRounds F settings 3 0
        (begin.note "starting simulation" [("config", settings.text)]) = (s, none) ∧
      (∀ a, a.toNat < 2 → Responds F s.world a) ∧
      s.tally.succeeded + s.tally.running = 6 ∧
      playRound F settings 3 s = (s', none) ∧
      answersIn s'.world = (1, .ok .success) :: (0, .ok .success) :: answersIn s.world := by
  intro settings
  have hlimit : ∀ limit, settings.tree.effectiveLimit = some limit → 8 ≤ limit := by
    rintro limit ⟨⟩
    exact Nat.le_refl 8
  obtain ⟨hexit, F, hF, hrounds⟩ := plays_through (fun _ => 0) settings (by decide) hlimit
  obtain ⟨s, hplays, hinOrder, hstandDown⟩ := hrounds 3
  obtain ⟨s', hround, hanswers⟩ := hstandDown (by decide) (by decide)
  exact ⟨hexit, F, s, s', hF, hplays, fun a ha => (hinOrder.responding a ha).2 (by decide),
    hinOrder.counted, hround, hanswers⟩

end Simulation

end TickTree.Patrol
