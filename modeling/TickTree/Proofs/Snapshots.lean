import TickTree.Snapshot

/-!
# Snapshots read back

A saved board is read back as it was, entry for entry and bit for bit, and this fails exactly if
an entry has no written form (`Blackboard.snapshot_reads_back`). Values carry no mark of their
variant, so it has to be seen from the saved form alone which one is meant (`Value.ofJson?_toJson`):
a truth value, an integer, another number and a text are four different forms. The other way round
an object is read exactly if all its members are such forms. Integers are the only ones that are
read in two ways, as integers where 64 bits hold them and else as floating-point numbers.
-/

namespace TickTree

/-! ## Single values -/

/-- A saved form that stands for a value: a truth value, a number or a text. -/
inductive Json.Plain : Json → Prop where
  | bool (b : Bool) : Plain (.bool b)
  | number (n : Json.Number) : Plain (.number n)
  | text (s : String) : Plain (.text s)

/-- A value that has a written form. -/
def Value.Writable : Value → Prop
  | .float x => x.isFinite = true
  | _ => True

theorem fitsInt64_iff {n : Int} :
    fitsInt64 n = true ↔ -9223372036854775808 ≤ n ∧ n ≤ 9223372036854775807 := by
  simp [fitsInt64]

theorem fitsInt64_toInt (n : Int64) : fitsInt64 n.toInt = true := by
  have hlo := n.le_toInt
  have hhi := n.toInt_lt
  rw [fitsInt64_iff]
  omega

namespace Value

theorem isSome_ofJson?_iff {saved : Json} : (ofJson? saved).isSome = true ↔ saved.Plain := by
  constructor
  · intro h
    cases saved with
    | bool b => exact .bool b
    | number n => exact .number n
    | text s => exact .text s
    | null | array | object => cases h
  · intro h
    cases h with
    | number n =>
      rw [ofJson?_eq]
      cases n <;> rfl
    | bool | text => rfl

/-- A value that has a written form is read from it again. -/
theorem ofJson?_toJson {v : Value} (h : v.Writable) : ofJson? v.toJson = some v := by
  cases v with
  | bool b => rfl
  | text s => rfl
  | int n => simp [toJson, ofJson?_eq, fitsInt64_toInt]
  | float x =>
    have hfinite : x.isFinite = true := h
    simp [toJson, hfinite, ofJson?_eq]

/-- Only a value that has a written form is saved as one. -/
theorem plain_toJson_iff {v : Value} : v.toJson.Plain ↔ v.Writable := by
  constructor
  · intro h
    cases v with
    | float x =>
      cases hfinite : x.isFinite with
      | true => exact hfinite
      | false =>
        simp only [toJson, hfinite] at h
        cases h
    | bool | int | text => trivial
  · intro h
    rw [← isSome_ofJson?_iff, ofJson?_toJson h]
    rfl

/-- An integer is read as one where 64 bits hold it, and else as a floating-point number. -/
theorem ofJson?_integer (n : Int) :
    (fitsInt64 n = true → ∃ m, ofJson? (.number (.integer n)) = some (.int m) ∧ m.toInt = n) ∧
      (fitsInt64 n = false → ∃ x, ofJson? (.number (.integer n)) = some (.float x)) := by
  simp only [ofJson?_eq]
  refine ⟨fun h => ⟨Int64.ofInt n, by rw [if_pos h], ?_⟩, fun h => ⟨_, by rw [h]; rfl⟩⟩
  have hfits := fitsInt64_iff.1 h
  exact Int64.toInt_ofInt_of_le (by omega) (by omega)

end Value

/-! ## Boards -/

/-- A key that is new is put behind the others. -/
theorem Entries.put_of_notMem {κ ν : Type} [DecidableEq κ] {k : κ} {v : ν} {entries : List (κ × ν)}
    (h : k ∉ entries.map Prod.fst) : put k v entries = entries ++ [(k, v)] := by
  induction entries with
  | nil => rfl
  | cons entry rest ih =>
    obtain ⟨k', v'⟩ := entry
    simp only [List.map_cons, List.mem_cons, not_or] at h
    rw [put, if_neg (Ne.symm h.1), ih h.2, List.cons_append]

/-- As no key has two entries, looking one up finds it. -/
theorem Table.get?_eq_some_iff {κ ν : Type} [DecidableEq κ] {t : Table κ ν} {k : κ} {v : ν} :
    t.get? k = some v ↔ (k, v) ∈ t.entries := by
  obtain ⟨entries, hnodup⟩ := t
  change Entries.lookup k entries = some v ↔ (k, v) ∈ entries
  induction entries with
  | nil => simp [Entries.lookup]
  | cons entry rest ih =>
    obtain ⟨k', v'⟩ := entry
    obtain ⟨hnew, hrest⟩ := List.nodup_cons.1 hnodup
    by_cases hk : k' = k
    · subst hk
      have hnot : (k', v) ∉ rest := fun hmem => hnew (List.mem_map.2 ⟨_, hmem, rfl⟩)
      simp [Entries.lookup, hnot, eq_comm]
    · simp [Entries.lookup, hk, Ne.symm hk, ih hrest]

theorem Entries.lookup_append {κ ν : Type} [DecidableEq κ] (k : κ) (l l' : List (κ × ν)) :
    lookup k (l ++ l') = (lookup k l).or (lookup k l') := by
  induction l with
  | nil => rfl
  | cons entry rest ih =>
    obtain ⟨k', v⟩ := entry
    by_cases hk : k' = k <;> simp [lookup, hk, ih]

namespace Blackboard

variable {b b' : Blackboard} {members : List (String × Json)}

theorem isSome_ofMembers?_iff :
    (ofMembers? b members).isSome = true ↔ ∀ member ∈ members, member.2.Plain := by
  induction members generalizing b with
  | nil => exact ⟨fun _ => nofun, fun _ => rfl⟩
  | cons member rest ih =>
    obtain ⟨key, saved⟩ := member
    rw [List.forall_mem_cons, ← Value.isSome_ofJson?_iff, ofMembers?]
    cases hsaved : Value.ofJson? saved with
    | none => simp
    | some value => simp only [ih, Option.isSome_some, true_and]

/-- After the members are read each key has the value of its last member, if it has one. -/
theorem get?_ofMembers? (h : ofMembers? b members = some b') (key : String) :
    b'.get? key = match Entries.lookup key members.reverse with
      | some saved => Value.ofJson? saved
      | none => b.get? key := by
  induction members generalizing b with
  | nil =>
    cases h
    rfl
  | cons member rest ih =>
    obtain ⟨key', saved⟩ := member
    rw [ofMembers?] at h
    cases hsaved : Value.ofJson? saved with
    | none => simp [hsaved] at h
    | some value =>
      rw [hsaved] at h
      rw [ih h, List.reverse_cons, Entries.lookup_append]
      cases Entries.lookup key rest.reverse with
      | some last => rfl
      | none => by_cases hkey : key' = key <;> simp [Entries.lookup, Table.get?_set, hkey, hsaved]

/-- The members of a board whose values have written forms are read as its entries. -/
theorem ofMembers?_toJson (b : Blackboard) (entries : List (String × Value))
    (hnodup : ((b.entries ++ entries).map Prod.fst).Nodup)
    (hwritable : ∀ entry ∈ entries, entry.2.Writable) :
    ∃ b', ofMembers? b (entries.map fun entry => (entry.1, entry.2.toJson)) = some b' ∧
      b'.entries = b.entries ++ entries := by
  induction entries generalizing b with
  | nil => exact ⟨b, rfl, (List.append_nil _).symm⟩
  | cons entry rest ih =>
    obtain ⟨key, value⟩ := entry
    obtain ⟨hvalue, hrest⟩ := List.forall_mem_cons.1 hwritable
    have hnew : key ∉ b.entries.map Prod.fst := by
      simp only [List.map_append, List.map_cons, List.nodup_append, List.nodup_cons] at hnodup
      exact fun hmem => hnodup.2.2 key hmem key (.head _) rfl
    have hentries : (b.set key value).entries = b.entries ++ [(key, value)] :=
      Entries.put_of_notMem hnew
    obtain ⟨b', hread, hb'⟩ := ih (b.set key value) (by simpa [hentries] using hnodup) hrest
    refine ⟨b', ?_, by rw [hb', hentries, List.append_assoc, List.singleton_append]⟩
    rw [List.map_cons, ofMembers?, Value.ofJson?_toJson hvalue]
    exact hread

/-- Saved forms are read as boards exactly if they are objects whose members stand for values. -/
theorem isSome_ofJson?_iff {saved : Json} : (ofJson? saved).isSome = true ↔
    ∃ members, saved = .object members ∧ ∀ member ∈ members, member.2.Plain := by
  constructor
  · intro h
    cases saved with
    | object members => exact ⟨members, rfl, isSome_ofMembers?_iff.1 h⟩
    | null | bool | number | text | array => cases h
  · rintro ⟨members, rfl, hplain⟩
    exact isSome_ofMembers?_iff.2 hplain

theorem ofJson?_toJson (h : ∀ entry ∈ b.entries, entry.2.Writable) :
    ofJson? b.toJson = some b := by
  obtain ⟨b', hread, hentries⟩ := ofMembers?_toJson ∅ b.entries b.nodup h
  obtain rfl : b' = b := Table.eq_of_entries hentries
  exact hread

/-- A board can be read from what it is saved as exactly if all its values have written forms. -/
theorem isSome_ofJson?_toJson_iff :
    (ofJson? b.toJson).isSome = true ↔ ∀ entry ∈ b.entries, entry.2.Writable := by
  rw [toJson, isSome_ofJson?_iff]
  constructor
  · rintro ⟨members, heq, hplain⟩ entry hentry
    cases heq
    exact Value.plain_toJson_iff.1 (hplain _ (List.mem_map_of_mem hentry))
  · intro h
    refine ⟨_, rfl, fun member hmember => ?_⟩
    obtain ⟨entry, hentry, rfl⟩ := List.mem_map.1 hmember
    exact Value.plain_toJson_iff.2 (h entry hentry)

theorem writable_iff : (∀ entry ∈ b.entries, entry.2.Writable) ↔
    ∀ key x, b.get? key = some (.float x) → x.isFinite = true := by
  constructor
  · exact fun h key x hx => h (key, .float x) (Table.get?_eq_some_iff.1 hx)
  · rintro h ⟨key, value⟩ hentry
    cases value with
    | float x => exact h key x (Table.get?_eq_some_iff.2 hentry)
    | bool | int | text => trivial

/-- A saved board is read back exactly if none of its numbers is infinite or no number at all, and
then as it was: the same keys with the same values, bit for bit. An object is read as a board
exactly if its members are truth values, numbers and texts. Each key has the value of its last
member, and an integer is read as one exactly if 64 bits hold it. -/
theorem snapshot_reads_back (b : Blackboard) :
    ((ofJson? b.toJson).isSome = true ↔
      ∀ key x, b.get? key = some (.float x) → x.isFinite = true) ∧
    (∀ b', ofJson? b.toJson = some b' → b' = b) ∧
    (∀ saved : Json, (ofJson? saved).isSome = true ↔
      ∃ members, saved = .object members ∧ ∀ member ∈ members, member.2.Plain) ∧
    ∀ members b', ofJson? (.object members) = some b' → ∀ key,
      b'.get? key = (Entries.lookup key members.reverse).bind Value.ofJson? ∧
      ∀ n, Entries.lookup key members.reverse = some (.number (.integer n)) →
        (-9223372036854775808 ≤ n ∧ n ≤ 9223372036854775807 →
          ∃ m, b'.get? key = some (.int m) ∧ m.toInt = n) ∧
        (¬ (-9223372036854775808 ≤ n ∧ n ≤ 9223372036854775807) →
          ∃ x, b'.get? key = some (.float x)) := by
  refine ⟨isSome_ofJson?_toJson_iff.trans writable_iff, fun b' h => ?_,
    fun saved => isSome_ofJson?_iff, fun members b' h key => ?_⟩
  · have hwritable := isSome_ofJson?_toJson_iff.1 (Option.isSome_of_eq_some h)
    rw [ofJson?_toJson hwritable] at h
    exact (Option.some.inj h).symm
  · have hvalue : b'.get? key = (Entries.lookup key members.reverse).bind Value.ofJson? := by
      rw [get?_ofMembers? h]
      cases Entries.lookup key members.reverse <;> rfl
    refine ⟨hvalue, fun n hn => ?_⟩
    obtain ⟨hfits, hlarge⟩ := Value.ofJson?_integer n
    rw [hvalue, hn, Option.bind_some, ← fitsInt64_iff]
    exact ⟨hfits, fun hnot => hlarge (by simpa using hnot)⟩

/-- A negative zero, the number that 64 bits just do not hold as an integer, the least that they do,
and texts that look like something else; then the same board with an infinity. Of two members with
one key the second is read, and it is one too large for an integer. -/
theorem snapshot_reads_back_lookalikes :
    let b : Blackboard := .ofList
      [("zero", .float ⟨0x8000000000000000⟩), ("large", .float ⟨0x43e0000000000000⟩),
        ("least", .int Int64.minValue), ("word", .text "true"), ("digits", .text "12")]
    let members : List (String × Json) :=
      [("n", .number (.integer 1)), ("k", .number (.integer (-9223372036854775808))),
        ("n", .number (.integer 9223372036854775808))]
    ofJson? b.toJson = some b ∧
    (ofJson? (toJson (b.set "far" (.float ⟨0x7ff0000000000000⟩)))).isSome = false ∧
    (∀ member ∈ members, member.2.Plain) ∧
    ∃ b', ofJson? (.object members) = some b' ∧ (∃ x, b'.get? "n" = some (.float x)) ∧
      ∃ m, b'.get? "k" = some (.int m) ∧ m.toInt = -9223372036854775808 := by
  intro b members
  obtain ⟨-, hsame, hreads, hvalues⟩ := snapshot_reads_back b
  obtain ⟨hfar, -⟩ := snapshot_reads_back (b.set "far" (.float ⟨0x7ff0000000000000⟩))
  have hread : ofJson? b.toJson = some _ := rfl
  have hmembers : ofJson? (.object members) = some _ := rfl
  obtain ⟨_, heq, hplain⟩ := (hreads (.object members)).1 rfl
  cases heq
  refine ⟨hread.trans (congrArg some (hsame _ hread)), ?_, hplain, _, hmembers,
    ((hvalues members _ hmembers "n").2 _ rfl).2 (by decide),
    ((hvalues members _ hmembers "k").2 _ rfl).1 (by decide)⟩
  refine Bool.eq_false_iff.2 fun hsome => ?_
  have hfinite := hfar.1 hsome "far" _ (Table.get?_set_self ..)
  exact absurd hfinite (by decide)

end Blackboard

end TickTree
