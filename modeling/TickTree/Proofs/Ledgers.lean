import TickTree.Proofs.Acts

/-!
# Ledgers of guards

What a guard has done on its patrols can be read off in two places: the journal has its calls of
`tally`, `scan` and `rest`, and its board in the guard tree says how many patrols it has made and
whether it is tired. The two agree at any time in a simulation (`Books.Balanced`). Each patrol is
two scans and a tally, each third patrol tires the guard, and then it rests before the next.

A guard that is out on a walk is not tired, and it is out just while its board in the patrol tree
has the route. Both boards are its own, so nothing but its own ticks and aborts matters to them
(`Act.Befalls`). A walk that it enters in a tick is over in its next tick, and an abort in between
leaves the books as they were before (`Excursion`).
-/

namespace TickTree.Patrol

/-! ## Books -/

theorem get?_patrols_tallied (board : Blackboard) :
    (tallied board).get? patrols = some (.int (nextPatrol (board.get? patrols))) := by
  rw [tallied]
  split
  · rw [Table.get?_set_of_ne _ _ (by decide : tired ≠ patrols), Table.get?_set_self]
  · rw [Table.get?_set_self]

theorem get?_tired_tallied (board : Blackboard) :
    (tallied board).get? tired =
      if nextPatrol (board.get? patrols) % 3 = 0 then some (.bool true) else board.get? tired := by
  rw [tallied]
  split
  · rw [Table.get?_set_self]
  · rw [Table.get?_set_of_ne _ _ (by decide : patrols ≠ tired)]

/-- What there is to read of the patrols of a guard. -/
structure Books where
  /-- How often it has counted a patrol. -/
  tallies : Nat
  /-- How often it has looked around. -/
  scans : Nat
  /-- How often it has rested. -/
  rests : Nat
  /-- How many patrols its board says that it has made. -/
  patrols : Option Value
  /-- Whether its board says that it is tired. -/
  tired : Option Value

/-- The books that tasks and a board give. -/
def Books.of (tasks : List String) (board : Blackboard) : Books where
  tallies := tasks.count "tally"
  scans := tasks.count "scan"
  rests := tasks.count "rest"
  patrols := board.get? Patrol.patrols
  tired := board.get? Patrol.tired

/-- The books of a guard. -/
def books (w : World GuardId Watch) (a : GuardId) : Books :=
  .of (tasksRun a w) ((w.agent? guardTree a).getD {}).board

/-- The board and the calls agree. -/
structure Books.Balanced (b : Books) : Prop where
  patrols : b.patrols = if b.tallies = 0 then none else some (.int (Int64.ofNat b.tallies))
  scans : b.scans = 2 * b.tallies
  rests : b.tired = some (.bool true) ∧ 0 < b.tallies ∧ 3 ∣ b.tallies ∧
      b.rests = b.tallies / 3 - 1 ∨
    b.tired ≠ some (.bool true) ∧ b.rests = b.tallies / 3

/-- The books when another patrol was counted, after two scans. -/
def Books.counted (b : Books) : Books :=
  let n := nextPatrol b.patrols
  { b with
    tallies := b.tallies + 1
    scans := b.scans + 2
    patrols := some (.int n)
    tired := if n % 3 = 0 then some (.bool true) else b.tired }

/-- The books when the guard has rested. -/
def Books.rested (b : Books) : Books := { b with rests := b.rests + 1, tired := some (.bool false) }

namespace Books

theorem balanced_nil : (of [] ∅).Balanced := ⟨rfl, rfl, .inr ⟨nofun, rfl⟩⟩

/-- Other tasks are not in the books. -/
theorem of_append {new : List String} (htally : "tally" ∉ new) (hscan : "scan" ∉ new)
    (hrest : "rest" ∉ new) (tasks : List String) (board : Blackboard) :
    of (new ++ tasks) board = of tasks board := by
  simp only [of, List.count_append, List.count_eq_zero_of_not_mem, htally, hscan, hrest,
    not_false_eq_true, Nat.zero_add]

theorem of_set_responseLeft (tasks : List String) (board : Blackboard) (v : Value) :
    of tasks (board.set responseLeft v) = of tasks board := by
  rw [of, of, Table.get?_set_of_ne _ _ (by decide), Table.get?_set_of_ne _ _ (by decide)]

theorem of_erase_responseLeft (tasks : List String) (board : Blackboard) :
    of tasks (board.erase responseLeft) = of tasks board := by
  rw [of, of, Table.get?_erase_of_ne _ (by decide), Table.get?_erase_of_ne _ (by decide)]

theorem of_tallied {tasks new : List String} (board : Blackboard) (htally : new.count "tally" = 1)
    (hscan : new.count "scan" = 2) (hrest : new.count "rest" = 0) :
    of (new ++ tasks) (tallied board) = (of tasks board).counted := by
  simp only [of, counted, List.count_append, htally, hscan, hrest, get?_patrols_tallied,
    get?_tired_tallied, Nat.add_comm, Nat.add_zero]
  rfl

/-- A walk is not in the books. -/
theorem of_walk (route : Route) (tasks : List String) (board : Blackboard) :
    of ([walkName route.name] ++ tasks) board = of tasks board := by
  refine of_append ?_ ?_ ?_ tasks board
  all_goals cases route <;> decide

theorem of_homecoming (route : Route) (tasks : List String) (board : Blackboard) :
    of ((homecoming.map Prod.fst ++ [walkName route.name]) ++ tasks) (tallied board) =
      (of tasks board).counted := by
  refine of_tallied board ?_ ?_ ?_
  all_goals cases route <;> decide

theorem of_rested (tasks : List String) (board : Blackboard) :
    of ("rest" :: tasks) (board.set Patrol.tired (.bool false)) = (of tasks board).rested := by
  simp [of, rested, Table.get?_set, Patrol.patrols, Patrol.tired]

namespace Balanced

variable {b : Books}

theorem nextPatrol_eq (h : b.Balanced) : nextPatrol b.patrols = Int64.ofNat (b.tallies + 1) := by
  rw [h.patrols]
  by_cases hzero : b.tallies = 0
  · rw [if_pos hzero, hzero]
    rfl
  · rw [if_neg hzero, Int64.ofNat_add]
    rfl

/-- Counting a patrol keeps the balance if the guard was not tired. -/
theorem counted (h : b.Balanced) (htired : b.tired ≠ some (.bool true))
    (hroom : b.tallies + 1 ≤ UInt32.size) : b.counted.Balanced := by
  have hsize : UInt32.size = 4294967296 := rfl
  have hthird : nextPatrol b.patrols % 3 = 0 ↔ 3 ∣ b.tallies + 1 := by
    have hmod : Int64.ofNat (b.tallies + 1) % 3 = Int64.ofNat ((b.tallies + 1) % 3) :=
      (Int64.ofNat_mod (by omega) (by decide)).symm
    rw [h.nextPatrol_eq, hmod, ← Int64.toInt_inj, Int64.toInt_ofNat_of_lt (by omega)]
    change ((b.tallies + 1) % 3 : Nat) = (0 : Int) ↔ _
    omega
  have hrests : b.rests = b.tallies / 3 := by
    rcases h.rests with ⟨htrue, -⟩ | ⟨-, hrests⟩
    · exact absurd htrue htired
    · exact hrests
  refine ⟨?_, ?_, ?_⟩
  · rw [Books.counted, if_neg (Nat.succ_ne_zero _), h.nextPatrol_eq]
  · have hscans := h.scans
    simp only [Books.counted]
    omega
  · simp only [Books.counted, hthird]
    by_cases hdvd : 3 ∣ b.tallies + 1
    · exact .inl ⟨if_pos hdvd, Nat.succ_pos _, hdvd, by omega⟩
    · exact .inr ⟨by rwa [if_neg hdvd], by omega⟩

/-- Resting keeps the balance. -/
theorem rested (h : b.Balanced) (htired : b.tired = some (.bool true)) : b.rested.Balanced := by
  refine ⟨h.patrols, h.scans, .inr ⟨nofun, ?_⟩⟩
  rcases h.rests with ⟨-, hpos, hdvd, hrests⟩ | ⟨hnot, -⟩
  · simp only [Books.rested]
    omega
  · exact absurd htired hnot

end Balanced

end Books

/-! ## Guards keep their books -/

/-- The books of a guard are in balance, and it is not tired while it is out on a walk. -/
structure Kept (tasks : List String) (g : Sentry) : Prop where
  balanced : (Books.of tasks g.board).Balanced
  fresh : ∀ route, g.duty = .walking route → g.board.get? tired ≠ some (.bool true)

theorem Sentry.books_aborted (tasks : List String) (g : Sentry) :
    Books.of tasks g.aborted.board = Books.of tasks g.board := by
  obtain ⟨duty, board⟩ := g
  cases duty with
  | responding => exact Books.of_erase_responseLeft tasks board
  | ready | walking => rfl

section

variable {a : GuardId} {act : Act} {acts : List Act} {g g' : Sentry} {tasks new : List String}

/-- Acts keep the books, as long as the patrols can be counted. -/
theorem Kept.befalls (h : Kept tasks g) (hbefalls : act.Befalls a g new g')
    (hroom : tasks.count "tally" + 1 ≤ UInt32.size) : Kept (new ++ tasks) g' := by
  cases hbefalls with
  | spared => exact h
  | aborted =>
    refine ⟨?_, fun route hduty => ?_⟩
    · rw [List.nil_append, Sentry.books_aborted]
      exact h.balanced
    · rw [Sentry.duty_aborted] at hduty
      cases hduty
  | ticked hticked =>
    cases hticked with
    | alarmed board =>
      refine ⟨?_, nofun⟩
      rw [Books.of_append (by decide) (by decide) (by decide), Books.of_set_responseLeft,
        Books.of_set_responseLeft]
      exact h.balanced
    | stoodDown raised board =>
      refine ⟨?_, nofun⟩
      rw [Books.of_append (by decide) (by decide) (by decide), Books.of_erase_responseLeft]
      exact h.balanced
    | rested htired =>
      refine ⟨?_, nofun⟩
      rw [show ([("rest", Status.success)].map Prod.fst ++ tasks) = "rest" :: tasks from rfl,
        Books.of_rested]
      exact h.balanced.rested htired
    | @setOut route board htired =>
      refine ⟨?_, fun _ _ => htired⟩
      rw [List.map_singleton, Books.of_walk]
      exact h.balanced
    | @stayed board htired =>
      refine ⟨?_, nofun⟩
      rw [Books.of_tallied board rfl rfl rfl]
      exact h.balanced.counted htired hroom
    | arrived raised route board =>
      refine ⟨?_, nofun⟩
      rw [List.map_append, List.map_singleton, Books.of_homecoming]
      exact h.balanced.counted (h.fresh route rfl) hroom

/-- A guard counts a patrol at most once a tick, and never between ticks. -/
theorem Act.Befalls.count_tally_le (h : act.Befalls a g new g') :
    new.count "tally" ≤ [act].count (.tick a) := by
  cases h with
  | spared | aborted => exact Nat.zero_le _
  | ticked hticked =>
    rw [List.count_cons_self, List.count_nil]
    cases hticked with
    | setOut route | arrived raised route => cases route <;> decide
    | _ => decide

theorem Kept.career (h : Kept tasks g) (hcareer : Career a acts g new g')
    (hroom : tasks.count "tally" + acts.count (.tick a) + 1 ≤ UInt32.size) :
    Kept (new ++ tasks) g' := by
  induction hcareer generalizing tasks with
  | done => exact h
  | @next act acts g g₁ g' new later hbefalls _ ih =>
    have hcount := hbefalls.count_tally_le
    have hsplit : ([act] ++ acts).count (.tick a) = [act].count (.tick a) + acts.count (.tick a) :=
      List.count_append
    rw [List.singleton_append] at hsplit
    rw [List.append_assoc]
    refine ih (h.befalls hbefalls (by omega)) ?_
    rw [List.count_append]
    omega

/-- A guard that enters a walk in a tick is out on it afterwards, and has done nothing else. -/
theorem Act.Befalls.enters {route : Route} (h : (Act.tick a).Befalls a g new g')
    (hidle : ∀ r, g.duty ≠ .walking r) (hwalk : walkName route.name ∈ new) :
    new = [walkName route.name] ∧ g' = ⟨.walking route, g.board⟩ := by
  cases h with
  | spared _ _ hnot => exact absurd rfl hnot
  | ticked hticked =>
    cases hticked with
    | @setOut r board htired =>
      have hroute : route = r := by
        revert hwalk
        cases route <;> cases r <;> decide
      subst hroute
      exact ⟨rfl, rfl⟩
    | arrived raised r board => exact absurd rfl (hidle r)
    | _ => cases route <;> exact absurd hwalk (by decide)

/-- A guard that is out on a walk comes back in its next tick, and counts the patrol. -/
theorem Act.Befalls.returns {route : Route} (h : (Act.tick a).Befalls a g new g')
    (hduty : g.duty = .walking route) :
    new = homecoming.map Prod.fst ++ [walkName route.name] ∧ g' = ⟨.ready, tallied g.board⟩ := by
  cases h with
  | spared _ _ hnot => exact absurd rfl hnot
  | ticked hticked =>
    cases hticked with
    | arrived raised r board =>
      cases hduty
      exact ⟨by simp, rfl⟩
    | _ => cases hduty

end

/-! ## Walks -/

/-- A guard is suspended on its link to the patrol tree, and there on the walk of a route. -/
structure Walks (F : Forest GuardId Watch) (w : World GuardId Watch) (a : GuardId)
    (route : Route) : Prop where
  linked : ∃ s link, w.agent? guardTree a = some s ∧
    (F.tree guardTree).awaited s = some (.subTree link) ∧ link.tree = patrolTree
  walking : ∃ s task, w.agent? patrolTree a = some s ∧
    (F.tree patrolTree).awaited s = some (.task task) ∧ task.name = walkName route.name

/-- The route that the board of a guard in the patrol tree has. -/
def routeEntry (w : World GuardId Watch) (a : GuardId) : Option Value :=
  ((w.agent? patrolTree a).getD {}).board.get? walking

section

variable {routes : Nat → UInt32} {patrolConfig guardConfig : Config} {w : World GuardId Watch}
  {a : GuardId} {g : Sentry}

theorem Posted.books (h : Posted (w.outlook a) g) :
    books w a = .of (tasksRun a w) g.board := by
  have hboard : ((w.agent? guardTree a).getD {}).board = g.board := h.board
  rw [Patrol.books, hboard]

theorem Posted.walks_iff (h : Posted (w.outlook a) g) {route : Route} :
    Walks (garrison routes patrolConfig guardConfig) w a route ↔ g.duty = .walking route := by
  obtain ⟨hcursor, hpaused⟩ := Prod.mk.inj h.standing
  obtain ⟨hcursor', hpaused'⟩ := Prod.mk.inj h.patrolStanding
  constructor
  · rintro ⟨⟨s, link, hagent, hawaited, -⟩, s', task, hagent', hawaited', hname⟩
    have hs : (w.outlook a).state guardTree = s := congrArg (·.getD {}) hagent
    have hs' : (w.outlook a).state patrolTree = s' := congrArg (·.getD {}) hagent'
    rw [hs] at hcursor hpaused
    rw [hs'] at hcursor' hpaused'
    cases hduty : g.duty with
    | ready =>
      rw [hduty] at hpaused
      rw [Tree.awaited_unpaused hpaused] at hawaited
      cases hawaited
    | responding =>
      rw [hduty] at hpaused'
      rw [Tree.awaited_unpaused hpaused'] at hawaited'
      cases hawaited'
    | walking r =>
      rw [hduty] at hcursor' hpaused'
      rw [Tree.awaited_paused (i := ⟨.task (strolling r), 4, 8⟩) hpaused'
        (by rw [hcursor']; exact get?_route r)] at hawaited'
      cases hawaited'
      congr 1
      revert hname
      cases r <;> cases route <;> decide
  · intro hduty
    rw [hduty] at hcursor hpaused hcursor' hpaused'
    refine ⟨⟨_, ⟨patrolTree, 7⟩, agent_of_paused hpaused, ?_, rfl⟩,
      _, strolling route, agent_of_paused hpaused', ?_, rfl⟩
    · exact Tree.awaited_paused (i := ⟨.subTree ⟨patrolTree, 7⟩, 5, 7⟩) hpaused
        (by rw [hcursor]; rfl)
    · exact Tree.awaited_paused (i := ⟨.task (strolling route), 4, 8⟩) hpaused'
        (by rw [hcursor']; exact get?_route route)

theorem Posted.routeEntry_isSome (h : Posted (w.outlook a) g) :
    (routeEntry w a).isSome ↔
      ∃ route, Walks (garrison routes patrolConfig guardConfig) w a route := by
  have hboard : ((w.agent? patrolTree a).getD {}).board = g.duty.patrolBoard := h.patrolBoard
  rw [routeEntry, hboard]
  simp only [h.walks_iff]
  cases g.duty with
  | walking route => simp [Duty.patrolBoard]
  | ready | responding => simp [Duty.patrolBoard, Table.get?_empty]

end

/-- A guard has entered the walk of a route in a tick, and meanwhile has been aborted or not. -/
structure Excursion (F : Forest GuardId Watch) (a : GuardId) (route : Route) (aborted : Prop)
    (before entered later : World GuardId Watch) : Prop where
  /-- It is out after the tick in which it enters the walk. -/
  out : Walks F entered a route
  /-- Nothing is counted while it is out, nor if it never comes back. -/
  uncounted : books entered a = books before a ∧ books later a = books before a
  /-- An abort ends the walk. -/
  abandoned : aborted → ∀ r, ¬Walks F later a r
  /-- Nothing else before its next tick does. -/
  lasts : ¬aborted → Walks F later a route
  /-- Its next tick is the second of the walk, and counts the patrol. -/
  returns : ¬aborted → ∃ home, (Act.tick a).perform F later = some home ∧
    (∀ r, ¬Walks F home a r) ∧ books home a = (books before a).counted ∧
    (tasksRun a home).count (walkName route.name) =
      (tasksRun a before).count (walkName route.name) + 2

section

variable (routes : Nat → UInt32) {patrolConfig guardConfig : Config}
  (hpatrol : ∀ limit, patrolConfig.effectiveLimit = some limit → 8 ≤ limit)
  (hguard : ∀ limit, guardConfig.effectiveLimit = some limit → 8 ≤ limit)
include hpatrol hguard

/-- A guard that is not out and enters a walk is on an excursion until its next tick. -/
theorem Stationed.excursion {w : World GuardId Watch} {raised : Bool}
    {sentries : GuardId → Sentry} (h : Stationed w raised sentries) {a : GuardId}
    {between : List Act} (hbetween : .tick a ∉ between) :
    ∃ entered later,
      (Act.tick a).perform (garrison routes patrolConfig guardConfig) w = some entered ∧
      Patrol.performAll (garrison routes patrolConfig guardConfig) between entered = some later ∧
      ∀ route, (∀ r, ¬Walks (garrison routes patrolConfig guardConfig) w a r) →
        (tasksRun a w).count (walkName route.name) <
          (tasksRun a entered).count (walkName route.name) →
        Excursion (garrison routes patrolConfig guardConfig) a route (.abort a ∈ between) w entered
          later := by
  obtain ⟨entered, _, sentries₁, hticks, h₁, hbefalls₁⟩ := h.perform routes hpatrol hguard (.tick a)
  obtain ⟨later, _, sentries₂, hall, h₂, hcareers⟩ := h₁.performAll routes hpatrol hguard between
  obtain ⟨home, _, sentries₃, hticks', h₃, hbefalls₃⟩ := h₂.perform routes hpatrol hguard (.tick a)
  obtain ⟨new, henters, htasks₁⟩ := hbefalls₁ a
  obtain ⟨idle, hcareer, htasks₂⟩ := hcareers a
  obtain ⟨did, hreturns, htasks₃⟩ := hbefalls₃ a
  refine ⟨entered, later, hticks, hall, fun route hready hcalls => ?_⟩
  have hwalk : walkName route.name ∈ new := by
    rw [htasks₁, List.count_append] at hcalls
    exact List.count_pos_iff.1 (by omega)
  obtain ⟨rfl, hsentry₁⟩ :=
    henters.enters (fun r hduty => hready r ((h.posted a).walks_iff.2 hduty)) hwalk
  obtain ⟨rfl, hsentry₂⟩ := hcareer.unticked hbetween
  have hbooks₁ : books entered a = books w a := by
    rw [(h₁.posted a).books, (h.posted a).books, htasks₁, hsentry₁, Books.of_walk]
  have hbooks₂ : books later a = books entered a := by
    rw [(h₂.posted a).books, (h₁.posted a).books, htasks₂, List.nil_append, hsentry₂]
    split
    · exact Sentry.books_aborted _ _
    · rfl
  refine ⟨(h₁.posted a).walks_iff.2 (by rw [hsentry₁]), ⟨hbooks₁, hbooks₂.trans hbooks₁⟩,
    fun habort r hwalks => ?_, fun habort => ?_, fun habort => ?_⟩
  · have hduty := (h₂.posted a).walks_iff.1 hwalks
    rw [hsentry₂, if_pos habort, Sentry.duty_aborted] at hduty
    cases hduty
  · rw [(h₂.posted a).walks_iff, hsentry₂, if_neg habort, hsentry₁]
  · rw [if_neg habort, hsentry₁] at hsentry₂
    have hduty₂ : (sentries₂ a).duty = .walking route := by rw [hsentry₂]
    obtain ⟨rfl, hsentry₃⟩ := hreturns.returns hduty₂
    refine ⟨home, hticks', fun r hwalks => ?_, ?_, ?_⟩
    · have hduty := (h₃.posted a).walks_iff.1 hwalks
      rw [hsentry₃] at hduty
      cases hduty
    · rw [(h₃.posted a).books, htasks₃, hsentry₃, Books.of_homecoming, ← (h₂.posted a).books,
        hbooks₂, hbooks₁]
    · rw [htasks₃, htasks₂, htasks₁]
      cases route <;> simp [homecoming, walkName, Route.name]

end

namespace Simulation

/-- Simulations play to their end, and at any point the books of every guard are in balance and its
board in the patrol tree has a route just while it is out on a walk. A walk that it enters in a
tick is over in its next tick, unless it is aborted before. -/
theorem keeps_books (routes : Nat → UInt32) (settings : Settings)
    (hlimit : ∀ limit, settings.tree.effectiveLimit = some limit → 8 ≤ limit) :
    ∃ F, forestOn routes settings.tree settings.tree = .ok F ∧
      let start := begin.note "starting simulation" [("config", settings.text)]
      (∃ s, start.play F settings = (s, none) ∧
        performAll F settings.acts start.world = some s.world) ∧
      (∀ past rest, settings.acts = past ++ rest → ∃ w, performAll F past start.world = some w ∧
        ∀ a, (books w a).Balanced ∧ ((routeEntry w a).isSome ↔ ∃ route, Walks F w a route)) ∧
      ∀ past a between rest, settings.acts = past ++ .tick a :: (between ++ rest) →
        .tick a ∉ between → ∃ before entered later,
          performAll F past start.world = some before ∧
          (Act.tick a).perform F before = some entered ∧
          performAll F between entered = some later ∧
          ∀ route, (∀ r, ¬Walks F before a r) →
            (tasksRun a before).count (walkName route.name) <
              (tasksRun a entered).count (walkName route.name) →
            Excursion F a route (.abort a ∈ between) before entered later := by
  refine ⟨_, forestOn_eq _ _ _, ?_⟩
  intro start
  have hbegin : Mustered settings 0 start fun _ => {} := begin_musters _ _
  have hstart : Stationed start.world false fun _ => {} := hbegin.stationed
  refine ⟨?_, fun past rest hacts => ?_, fun past a between rest hacts hbetween => ?_⟩
  · obtain ⟨w, _, _, hall, -⟩ := hstart.performAll routes hlimit hlimit settings.acts
    obtain ⟨tally, hplay⟩ := play_of_performAll (s := start) hall
    exact ⟨⟨w, tally⟩, hplay, hall⟩
  · obtain ⟨w, _, sentries, hall, h, hcareers⟩ := hstart.performAll routes hlimit hlimit past
    refine ⟨w, hall, fun a => ⟨?_, (h.posted a).routeEntry_isSome⟩⟩
    obtain ⟨new, hcareer, htasks⟩ := hcareers a
    have hticks : past.count (.tick a) ≤ settings.ticks.toNat := by
      have hcount := settings.count_tick_actsFrom settings.ticks.toNat 0 a
      rw [show settings.actsFrom settings.ticks.toNat 0 = past ++ rest from hacts,
        List.count_append] at hcount
      omega
    have hbound : settings.ticks.toNat + 1 ≤ UInt32.size := settings.ticks.toNat_lt
    have hroom : ([] : List String).count "tally" + past.count (.tick a) + 1 ≤ UInt32.size := by
      rw [List.count_nil]
      omega
    have hkept : Kept [] {} := ⟨Books.balanced_nil, nofun⟩
    rw [(h.posted a).books, htasks]
    exact (hkept.career hcareer hroom).balanced
  · obtain ⟨before, _, _, hall, h, -⟩ := hstart.performAll routes hlimit hlimit past
    obtain ⟨entered, later, hticks, hlater, hexcursion⟩ :=
      h.excursion routes hlimit hlimit hbetween
    exact ⟨before, entered, later, hall, hticks, hlater, hexcursion⟩

/-- A guard has come back from one walk, enters another, and is aborted by the alarm. -/
theorem keeps_books_two_walks :
    let settings : Settings := { agents := 1, ticks := 4, stepLimit := some 8, alarmEvery := 3 }
    let start := begin.note "starting simulation" [("config", settings.text)]
    ∃ F before entered later, forestOn (fun _ => 0) settings.tree settings.tree = .ok F ∧
      performAll F [.round 0, .tick 0, .round 1, .tick 0, .round 2] start.world = some before ∧
      (Act.tick 0).perform F before = some entered ∧
      performAll F [.round 3, .raise, .abort 0, .report 3] entered = some later ∧
      Walks F entered 0 .north ∧ (∀ r, ¬Walks F later 0 r) ∧ (books later 0).Balanced ∧
      (books later 0).tallies = 1 := by
  have hacts : Settings.acts ⟨1, 4, none, some 8, 3⟩ =
      [.round 0, .tick 0, .round 1, .tick 0, .round 2] ++
        .tick 0 :: ([.round 3, .raise, .abort 0, .report 3] ++ [.tick 0]) := by decide
  -- What the guard has done before its third tick, and what after it.
  have hshown : ((performAll (garrison (fun _ => 0) ⟨none, some 8⟩ ⟨none, some 8⟩)
      [.round 0, .tick 0, .round 1, .tick 0, .round 2]
      (begin.note "starting simulation"
        [("config", Settings.text ⟨1, 4, none, some 8, 3⟩)]).world).bind
      fun w => ((Act.tick 0).perform (garrison (fun _ => 0) ⟨none, some 8⟩ ⟨none, some 8⟩) w).map
        fun w' => ((routeEntry w 0).isSome, tasksRun 0 w, tasksRun 0 w')) =
      some (false, ["tally", "scan", "scan", "walk_north", "walk_north"],
        ["walk_north", "tally", "scan", "scan", "walk_north", "walk_north"]) := by decide
  intro settings start
  have hlimit : ∀ limit, settings.tree.effectiveLimit = some limit → 8 ≤ limit := by
    rintro limit ⟨⟩
    exact Nat.le_refl 8
  obtain ⟨F, hF, -, hbooks, hwalks⟩ := keeps_books (fun _ => 0) settings hlimit
  obtain rfl := Except.ok.inj (hF.symm.trans (forestOn_eq _ _ _))
  obtain ⟨before, entered, later, hbefore, hticks, hlater, hexcursion⟩ :=
    hwalks _ _ _ _ hacts (by decide)
  obtain ⟨w, hw, hguard⟩ := hbooks _ _ hacts
  obtain rfl : w = before := Option.some.inj (hw.symm.trans hbefore)
  obtain ⟨w₀, hw₀, hshown⟩ := Option.bind_eq_some_iff.1 hshown
  obtain rfl : w₀ = w := Option.some.inj (hw₀.symm.trans hw)
  obtain ⟨w₁, hw₁, hshown⟩ := Option.map_eq_some_iff.1 hshown
  obtain rfl : w₁ = entered := Option.some.inj (hw₁.symm.trans hticks)
  simp only [Prod.mk.injEq] at hshown
  obtain ⟨hroute, htasks, htasks'⟩ := hshown
  have hready : ∀ r, ¬Walks _ w₀ 0 r := fun r hwalk =>
    Bool.false_ne_true (hroute.symm.trans ((hguard 0).2.2 ⟨r, hwalk⟩))
  have hout := hexcursion .north hready (by rw [htasks, htasks']; decide)
  have hsame : books later 0 = books w₀ 0 := hout.uncounted.2
  refine ⟨_, w₀, w₁, later, hF, hw, hticks, hlater, hout.out, hout.abandoned (by decide),
    hsame ▸ (hguard 0).1, ?_⟩
  rw [hsame, books, htasks]
  rfl

end Simulation

end TickTree.Patrol
