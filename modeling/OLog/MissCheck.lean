import Mathlib.Data.List.DropRight
import OLog.Lib.Codec
import OLog.Lib.OrdMap
import OLog.Overflow
import OLog.TextReader

/-!
The miss check of the Kafka stream application. `transform` joins the first
detail fields it is given in one text for each key; `checkRecords` looks for
the tick `latest` among the keys and for each product in the joined text, both
by substring. What a check reports is therefore exact only where no other key
contains the text of the tick and no other code contains a product, or where
the difference does not show.

The JSON library is a parameter, as is `Long.valueOf`, which reads more than
decimal digits. The order in which a hash map is iterated is not specified and
may differ from one check to the next.
-/

namespace OLog

open Lib

/-- `Long.valueOf`, where `none` is the `NumberFormatException`. -/
structure LongReader where
  valueOf : String → Option Int
  inInt64_of_valueOf : ∀ {text n}, valueOf text = some n → InInt64 n
  valueOf_showInt : ∀ {n}, InInt64 n → valueOf (showInt n) = some n

/-- The iteration over `entrySet()` visits every entry once. -/
structure IterationOrder where
  entrySet : OrdMap String String → List (String × String)
  perm : ∀ m, (entrySet m).Perm m.entries

/-- `text.contains(word)`. -/
def Contains (text word : String) : Prop := word.toList <:+: text.toList

instance (text word : String) : Decidable (Contains text word) :=
  inferInstanceAs (Decidable (word.toList <:+: text.toList))

structure MissMessage where
  feedcode : String
  timestamp : Int
  log : String
deriving DecidableEq, Repr

structure MyTransformer where
  latest : Int := 0
  isFirst : Bool := true
  records : OrdMap String String := OrdMap.empty
  retVec : List (String × MissMessage) := []

namespace MyTransformer

/-- What `transform` can throw. -/
inductive Thrown where
  | numberFormat
  | json
  | arrayIndexOutOfBounds
deriving DecidableEq, Repr

/-- The feedcodes that `init` adds. -/
def products : List String := (List.range' 4000 100).map (fun i => "rb" ++ showInt i)

/-- `text.split(",")`: empty pieces at the end are dropped, unless the text has
no comma at all. -/
def split (text : List Char) : List (List Char) :=
  let pieces := text.splitOn ','
  if pieces.length = 1 then pieces else pieces.rdropWhile List.isEmpty

section

variable {Value : Type} (long : LongReader) (reader : JsonReader Value)

def firstDetail (recordValue : String) : Except Thrown String :=
  match reader.parse recordValue with
  | none => .error .json
  | some message =>
      match reader.memberAsString message "detail" with
      | .error _ => .error .json
      | .ok detail =>
          match (split detail.toList).head? with
          | none => .error .arrayIndexOutOfBounds
          | some value => .ok (String.ofList value)

/-- The value that `records.merge` stores. -/
def merged (old : Option String) (value : String) : String :=
  match old with
  | none => value
  | some a => a ++ "," ++ value

/-- The fields after the call, and its result. What is assigned before an
exception stays assigned. -/
def transform (s : MyTransformer) (recordKey recordValue : String) :
    MyTransformer × Except Thrown (Option (String × MissMessage)) :=
  if s.isFirst then
    match long.valueOf recordKey with
    | none => ({ s with isFirst := false }, .error .numberFormat)
    | some n =>
        match firstDetail reader recordValue with
        | .error e => ({ s with isFirst := false, latest := n }, .error e)
        | .ok value =>
            ({ s with isFirst := false, latest := n, records := s.records.insert recordKey value },
              .ok none)
  else
    match firstDetail reader recordValue with
    | .error e => (s, .error e)
    | .ok value =>
        let records := s.records.insert recordKey (merged (s.records.get? recordKey) value)
        match s.retVec with
        | [] => ({ s with records := records }, .ok none)
        | temp :: rest => ({ s with records := records, retVec := rest }, .ok (some temp))

/-- The entry that the loop of `checkRecords` stops at. -/
def found (s : MyTransformer) (order : IterationOrder) : Option (String × String) :=
  (order.entrySet s.records).find? (fun entry => decide (Contains entry.1 (showInt s.latest)))

def miss (s : MyTransformer) (feedcode : String) : String × MissMessage :=
  (showInt s.latest, ⟨feedcode, s.latest, "miss"⟩)

def checkRecords (s : MyTransformer) (order : IterationOrder) : MyTransformer :=
  match s.found order with
  | some (key, value) =>
      { s with
        records := s.records.erase key
        retVec := s.retVec ++ (products.filter (fun p => decide (¬ Contains value p))).map s.miss }
  | none => { s with retVec := s.retVec ++ [s.miss "ALL"] }

/-- The steps of the stream thread and of the thread that `init` starts: a
record arrives, the records are checked, half a second has passed. -/
inductive Call where
  | transform (recordKey recordValue : String)
  | checkRecords (order : IterationOrder)
  | sleep

def step (s : MyTransformer) : Call → MyTransformer
  | .transform recordKey recordValue => (transform long reader s recordKey recordValue).1
  | .checkRecords order => s.checkRecords order
  | .sleep => { s with latest := wrap64 (s.latest + 500000000) }

def run (calls : List Call) : MyTransformer := calls.foldl (step long reader) {}

/-- A call had this key and this first detail field. -/
def Received (calls : List Call) (key code : String) : Prop :=
  ∃ recordValue, Call.transform key recordValue ∈ calls ∧ firstDetail reader recordValue = .ok code

/-- The key and the code that a call adds to the records. The first call adds
nothing when its key is not a number. -/
def added (s : MyTransformer) (recordKey recordValue : String) : Option (String × String) :=
  if s.isFirst = true ∧ long.valueOf recordKey = none then none
  else (firstDetail reader recordValue).toOption.map (fun code => (recordKey, code))

/-- The pairs of key and code that are held after a step: a call adds its own,
and a check takes away those of the key it has found. -/
def keep (s : MyTransformer) (held : List (String × String)) : Call → List (String × String)
  | .transform recordKey recordValue => held ++ (added long reader s recordKey recordValue).toList
  | .checkRecords order => held.filter (fun e => decide ((s.found order).map Prod.fst ≠ some e.1))
  | .sleep => held

def held (s : MyTransformer) (pairs : List (String × String)) :
    List Call → List (String × String)
  | [] => pairs
  | call :: calls => held (step long reader s call) (keep long reader s pairs call) calls

/-- The codes under a key. -/
def codesOf (key : String) (pairs : List (String × String)) : List String :=
  (pairs.filter (fun e => decide (e.1 = key))).map Prod.snd

/-- The codes that have arrived under a key since a check last took it. -/
def waiting (calls : List Call) (key : String) : List String :=
  codesOf key (held long reader {} [] calls)

@[simp] theorem mem_codesOf {key code : String} {pairs : List (String × String)} :
    code ∈ codesOf key pairs ↔ (key, code) ∈ pairs := by
  simp [codesOf]

theorem codesOf_append (key : String) (pairs pairs' : List (String × String)) :
    codesOf key (pairs ++ pairs') = codesOf key pairs ++ codesOf key pairs' := by
  simp [codesOf]

theorem codesOf_filter_ne (key : String) (taken : Option String) (pairs : List (String × String)) :
    codesOf key (pairs.filter (fun e => decide (taken ≠ some e.1))) =
      if taken = some key then [] else codesOf key pairs := by
  have hfilter : ∀ e : String × String, (decide (e.1 = key) && decide (taken ≠ some e.1)) =
      (decide (e.1 = key) && decide (taken ≠ some key)) := by
    intro e
    by_cases he : e.1 = key <;> simp [he]
  simp only [codesOf, List.filter_filter, hfilter]
  split_ifs with htaken <;> simp [htaken]

/-- A stored text stands for the codes that were joined in it: it contains a
word without commas where one of them does. -/
def Summed (codes : List String) : Option String → Prop
  | none => codes = []
  | some value => codes ≠ [] ∧ ∀ word : String, ',' ∉ word.toList →
      (Contains value word ↔ ∃ code ∈ codes, Contains code word)

theorem contains_joined_iff {a b word : String} (hword : ',' ∉ word.toList) :
    Contains (a ++ "," ++ b) word ↔ Contains a word ∨ Contains b word := by
  have htext : (a ++ "," ++ b).toList = a.toList ++ ',' :: b.toList := by simp
  unfold Contains
  rw [htext]
  exact infix_append_sep_iff hword

theorem Summed.merged {codes : List String} {old : Option String} (h : Summed codes old)
    (code : String) : Summed (codes ++ [code]) (some (merged old code)) := by
  refine ⟨by simp, ?_⟩
  intro word hword
  cases old with
  | none =>
      have hnone : codes = [] := h
      simp [MyTransformer.merged, hnone]
  | some value =>
      have hjoined := contains_joined_iff (a := value) (b := code) hword
      simp [MyTransformer.merged, hjoined, h.2 word hword, or_and_right, exists_or]

/-- The records hold the pairs. -/
structure Keeps (pairs : List (String × String)) (s : MyTransformer) : Prop where
  fresh : s.isFirst = true → pairs = []
  summed : ∀ key, Summed (codesOf key pairs) (s.records.get? key)

theorem Keeps.get?_eq_none {pairs : List (String × String)} {s : MyTransformer} (h : Keeps pairs s)
    (hfirst : s.isFirst = true) (key : String) : s.records.get? key = none := by
  have hsummed := h.summed key
  cases hget : s.records.get? key with
  | none => rfl
  | some value =>
      rw [hget, h.fresh hfirst] at hsummed
      exact absurd rfl hsummed.1

theorem transform_isFirst (s : MyTransformer) (recordKey recordValue : String) :
    (transform long reader s recordKey recordValue).1.isFirst = false := by
  unfold transform
  split
  · split
    · rfl
    · split <;> rfl
  · next hfirst =>
      have hlater : s.isFirst = false := Bool.eq_false_iff.mpr hfirst
      split
      · exact hlater
      · cases s.retVec <;> exact hlater

/-- `put` on the first call does what `merge` does on the later ones, because
nothing has been stored yet. -/
theorem transform_records {s : MyTransformer}
    (hfirst : s.isFirst = true → ∀ key, s.records.get? key = none)
    (recordKey recordValue : String) :
    (transform long reader s recordKey recordValue).1.records =
      match added long reader s recordKey recordValue with
      | none => s.records
      | some (key, code) => s.records.insert key (merged (s.records.get? key) code) := by
  cases hs : s.isFirst with
  | true =>
      cases hlong : long.valueOf recordKey with
      | none => simp [transform, added, hs, hlong]
      | some n =>
          cases hdetail : firstDetail reader recordValue <;>
            simp [transform, added, hs, hlong, hdetail, Except.toOption, merged, hfirst hs]
  | false =>
      cases hdetail : firstDetail reader recordValue with
      | error e => simp [transform, added, hs, hdetail, Except.toOption]
      | ok value => cases hret : s.retVec <;>
          simp [transform, added, hs, hdetail, hret, Except.toOption]

theorem codesOf_added (key : String) (pairs : List (String × String)) (key' code : String) :
    codesOf key (pairs ++ [(key', code)]) =
      if key = key' then codesOf key pairs ++ [code] else codesOf key pairs := by
  rw [codesOf_append]
  split_ifs with h
  · simp [codesOf, h]
  · simp [codesOf, Ne.symm h]

theorem Keeps.transform {pairs : List (String × String)} {s : MyTransformer} (h : Keeps pairs s)
    (recordKey recordValue : String) :
    Keeps (pairs ++ (added long reader s recordKey recordValue).toList)
      (transform long reader s recordKey recordValue).1 := by
  refine ⟨?_, ?_⟩
  · intro hfirst
    rw [transform_isFirst] at hfirst
    cases hfirst
  · intro key
    rw [transform_records long reader h.get?_eq_none]
    cases hadded : added long reader s recordKey recordValue with
    | none =>
        rw [Option.toList_none, List.append_nil]
        exact h.summed key
    | some pair =>
        obtain ⟨key', code⟩ := pair
        rw [Option.toList_some, codesOf_added]
        dsimp only
        rw [OrdMap.get?_insert]
        split_ifs with hkey
        · rw [hkey]
          exact (h.summed key').merged code
        · exact h.summed key

theorem Keeps.checkRecords {pairs : List (String × String)} {s : MyTransformer} (h : Keeps pairs s)
    (order : IterationOrder) :
    Keeps (pairs.filter (fun e => decide ((s.found order).map Prod.fst ≠ some e.1)))
      (s.checkRecords order) := by
  unfold MyTransformer.checkRecords
  cases hfound : s.found order with
  | none =>
      simp only [Option.map_none, ne_eq, reduceCtorEq, not_false_eq_true, decide_true,
        List.filter_true]
      exact ⟨h.fresh, h.summed⟩
  | some entry =>
      refine ⟨?_, ?_⟩
      · intro hfirst
        rw [h.fresh hfirst, List.filter_nil]
      · intro key
        dsimp only
        rw [codesOf_filter_ne, OrdMap.get?_erase, Option.map_some]
        by_cases hkey : key = entry.1
        · rw [if_pos hkey, if_pos (congrArg some hkey.symm)]
          rfl
        · rw [if_neg hkey, if_neg (fun heq => hkey (Option.some.inj heq).symm)]
          exact h.summed key

theorem Keeps.step {pairs : List (String × String)} {s : MyTransformer} (h : Keeps pairs s)
    (call : Call) : Keeps (keep long reader s pairs call) (step long reader s call) := by
  cases call with
  | transform recordKey recordValue => exact h.transform long reader recordKey recordValue
  | checkRecords order => exact h.checkRecords order
  | sleep => exact ⟨h.fresh, h.summed⟩

theorem Keeps.run {pairs : List (String × String)} {s : MyTransformer} (h : Keeps pairs s)
    (calls : List Call) :
    Keeps (held long reader s pairs calls) (calls.foldl (MyTransformer.step long reader) s) := by
  induction calls generalizing s pairs with
  | nil => exact h
  | cons call calls ih => exact ih (h.step long reader call)

theorem keeps_start : Keeps [] {} := ⟨fun _ => rfl, fun _ => rfl⟩

/-- After any calls the text stored under a key stands for the codes that wait
there. -/
theorem summed_waiting (calls : List Call) (key : String) :
    Summed (waiting long reader calls key) ((run long reader calls).records.get? key) :=
  (keeps_start.run long reader calls).summed key

theorem exists_get?_of_waiting {calls : List Call} {key : String}
    (h : waiting long reader calls key ≠ []) :
    ∃ value, (run long reader calls).records.get? key = some value := by
  have hsummed := summed_waiting long reader calls key
  cases hget : (run long reader calls).records.get? key with
  | none =>
      rw [hget] at hsummed
      exact absurd hsummed h
  | some value => exact ⟨value, rfl⟩

theorem waiting_of_get? {calls : List Call} {key value : String}
    (h : (run long reader calls).records.get? key = some value) :
    waiting long reader calls key ≠ [] ∧ ∀ word : String, ',' ∉ word.toList →
      (Contains value word ↔ ∃ code ∈ waiting long reader calls key, Contains code word) := by
  have hsummed := summed_waiting long reader calls key
  rw [h] at hsummed
  exact hsummed

theorem found_eq_some {s : MyTransformer} {order : IterationOrder} {key value : String}
    (h : s.found order = some (key, value)) :
    s.records.get? key = some value ∧ Contains key (showInt s.latest) := by
  unfold found at h
  have hmem := (order.perm s.records).mem_iff.mp (List.mem_of_find?_eq_some h)
  have hkey := List.find?_some h
  exact ⟨(OrdMap.mem_iff_lookup s.records.sorted key value).mp hmem, of_decide_eq_true hkey⟩

theorem found_eq_none {s : MyTransformer} {order : IterationOrder} (h : s.found order = none)
    {key value : String} (hget : s.records.get? key = some value) :
    ¬ Contains key (showInt s.latest) := by
  have hmem := (order.perm s.records).mem_iff.mpr
    ((OrdMap.mem_iff_lookup s.records.sorted key value).mpr hget)
  exact of_decide_eq_false (Bool.eq_false_iff.mpr (List.find?_eq_none.mp h _ hmem))

/-- An order that visits the given key first. -/
def startingWith (key : String) : IterationOrder where
  entrySet m :=
    match m.get? key with
    | none => m.entries
    | some value => (key, value) :: m.entries.erase (key, value)
  perm m := by
    cases hget : m.get? key with
    | none => exact List.Perm.refl _
    | some value =>
        exact (List.perm_cons_erase ((OrdMap.mem_iff_lookup m.sorted key value).mpr hget)).symm

theorem found_startingWith {s : MyTransformer} {key value : String}
    (hget : s.records.get? key = some value) (hkey : Contains key (showInt s.latest)) :
    s.found (startingWith key) = some (key, value) := by
  unfold found startingWith
  simp only [hget]
  exact List.find?_cons_of_pos (decide_eq_true hkey)

theorem comma_notMem_product {p : String} (hp : p ∈ products) : ',' ∉ p.toList := by
  obtain ⟨i, _, rfl⟩ := List.mem_map.mp hp
  intro hmem
  rcases List.mem_append.mp (String.toList_append ▸ hmem) with hname | hnumber
  · exact absurd hname (by decide)
  · exact ((FieldKind.plain_showInt i).2 ',' hnumber).2 rfl

theorem product_ne_all {p : String} (hp : p ∈ products) : p ≠ "ALL" := by
  obtain ⟨i, _, rfl⟩ := List.mem_map.mp hp
  intro heq
  have hhead := congrArg (fun text : String => text.toList.head?) heq
  simp at hhead

/-- The check has added an entry for the product, or one for all. -/
def ReportedMissing (s : MyTransformer) (order : IterationOrder) (p : String) : Prop :=
  ∃ entry ∈ (s.checkRecords order).retVec.drop s.retVec.length,
    entry.2.timestamp = s.latest ∧ entry.2.log = "miss" ∧
      (entry.2.feedcode = p ∨ entry.2.feedcode = "ALL")

theorem reportedMissing_of_found {s : MyTransformer} {order : IterationOrder}
    {entry : String × String} (hfound : s.found order = some entry) {p : String}
    (hp : p ∈ products) : s.ReportedMissing order p ↔ ¬ Contains entry.2 p := by
  unfold ReportedMissing checkRecords
  simp only [hfound, List.drop_left, List.mem_map, List.mem_filter, decide_eq_true_eq]
  constructor
  · rintro ⟨_, ⟨q, ⟨hq, hmissing⟩, rfl⟩, _, _, hcode⟩
    rcases hcode with hcode | hcode
    · exact hcode ▸ hmissing
    · exact absurd hcode (product_ne_all hq)
  · intro hmissing
    exact ⟨s.miss p, ⟨p, ⟨hp, hmissing⟩, rfl⟩, rfl, rfl, Or.inl rfl⟩

theorem reportedMissing_of_not_found {s : MyTransformer} {order : IterationOrder}
    (hfound : s.found order = none) (p : String) : s.ReportedMissing order p := by
  unfold ReportedMissing checkRecords
  simp only [hfound, List.drop_left, List.mem_singleton]
  exact ⟨s.miss "ALL", rfl, rfl, rfl, Or.inr rfl⟩

theorem added_eq_some {s : MyTransformer} {recordKey recordValue key code : String}
    (h : added long reader s recordKey recordValue = some (key, code)) :
    recordKey = key ∧ firstDetail reader recordValue = .ok code := by
  unfold added at h
  split_ifs at h
  cases hdetail : firstDetail reader recordValue with
  | error e => simp [hdetail, Except.toOption] at h
  | ok value => simpa [hdetail, Except.toOption] using h

theorem added_of_number {recordKey recordValue code : String} {n : Int}
    (hnumber : long.valueOf recordKey = some n)
    (hdetail : firstDetail reader recordValue = .ok code) (s : MyTransformer) :
    added long reader s recordKey recordValue = some (recordKey, code) := by
  simp [added, hnumber, hdetail, Except.toOption]

/-- Only what was received waits. -/
theorem received_of_mem_held {calls : List Call} {s : MyTransformer}
    {pairs : List (String × String)} {key code : String}
    (h : (key, code) ∈ held long reader s pairs calls) :
    (key, code) ∈ pairs ∨ Received reader calls key code := by
  induction calls generalizing s pairs with
  | nil => exact Or.inl h
  | cons call calls ih =>
      rcases ih h with hkept | ⟨recordValue, hmem, hdetail⟩
      · cases call with
        | transform recordKey recordValue =>
            rcases List.mem_append.mp hkept with hpairs | hadded
            · exact Or.inl hpairs
            · obtain ⟨rfl, hdetail⟩ := added_eq_some long reader (Option.mem_toList.mp hadded)
              exact Or.inr ⟨recordValue, List.mem_cons_self, hdetail⟩
        | checkRecords order => exact Or.inl (List.mem_of_mem_filter hkept)
        | sleep => exact Or.inl hkept
      · exact Or.inr ⟨recordValue, List.mem_cons_of_mem _ hmem, hdetail⟩

/-- As long as nothing is checked, what was received under a number waits. -/
theorem mem_held_of_received {calls : List Call}
    (hchecks : ∀ call ∈ calls, ∀ order, call ≠ .checkRecords order) {key code : String} {n : Int}
    (hnumber : long.valueOf key = some n) {s : MyTransformer} {pairs : List (String × String)}
    (h : (key, code) ∈ pairs ∨ Received reader calls key code) :
    (key, code) ∈ held long reader s pairs calls := by
  induction calls generalizing s pairs with
  | nil =>
      rcases h with hpairs | ⟨_, hmem, _⟩
      · exact hpairs
      · cases hmem
  | cons call calls ih =>
      obtain ⟨hcall, hcalls⟩ := List.forall_mem_cons.mp hchecks
      apply ih hcalls
      rcases h with hpairs | ⟨recordValue, hmem, hdetail⟩
      · cases call with
        | transform _ _ => exact Or.inl (List.mem_append_left _ hpairs)
        | checkRecords order => exact absurd rfl (hcall order)
        | sleep => exact Or.inl hpairs
      · rcases List.mem_cons.mp hmem with rfl | hmem
        · have hadded := added_of_number long reader hnumber hdetail s
          exact Or.inl (List.mem_append_right _ (Option.mem_toList.mpr hadded))
        · exact Or.inr ⟨recordValue, hmem, hdetail⟩

theorem inInt64_step {s : MyTransformer} (h : InInt64 s.latest) (call : Call) :
    InInt64 (step long reader s call).latest := by
  cases call with
  | transform recordKey recordValue =>
      simp only [step, transform]
      split
      · split
        · exact h
        · next n hlong => split <;> exact long.inInt64_of_valueOf hlong
      · split
        · exact h
        · cases s.retVec <;> exact h
  | checkRecords order =>
      simp only [step, checkRecords]
      split <;> exact h
  | sleep =>
      simp only [step, wrap64, InInt64]
      omega

theorem inInt64_latest (calls : List Call) : InInt64 (run long reader calls).latest := by
  unfold run
  induction calls using List.reverseRecOn with
  | nil => exact (by decide : InInt64 0)
  | append_singleton calls call ih =>
      rw [List.foldl_concat]
      exact inInt64_step long reader ih call

/-- The calls leave no room for a mistake about the tick with the given text. -/
structure Unconfused (calls : List Call) (tick : String) : Prop where
  codes : ∀ key, Contains key tick → ∀ code ∈ waiting long reader calls key, ∀ p ∈ products,
    Contains code p → Received reader calls tick p
  keys : ∀ key, Contains key tick → waiting long reader calls key ≠ [] → ∀ p ∈ products,
    Received reader calls tick p → ∃ code ∈ waiting long reader calls key, Contains code p
  present : ∀ p ∈ products, Received reader calls tick p →
    ∃ key, Contains key tick ∧ waiting long reader calls key ≠ []

/-- Nothing can go wrong before the first check, if the text of the tick is part
of no other key and the products are part of no other code. -/
theorem unconfused_of_separate {calls : List Call}
    (hchecks : ∀ call ∈ calls, ∀ order, call ≠ .checkRecords order)
    (hkeys : ∀ key code, Received reader calls key code →
      Contains key (showInt (run long reader calls).latest) →
        key = showInt (run long reader calls).latest)
    (hcodes : ∀ key code, Received reader calls key code →
      ∀ p ∈ products, Contains code p → code = p) :
    Unconfused long reader calls (showInt (run long reader calls).latest) := by
  have hwaiting : ∀ key code, code ∈ waiting long reader calls key →
      Received reader calls key code := by
    intro key code hcode
    rcases received_of_mem_held long reader (mem_codesOf.mp hcode) with hnone | hreceived
    · cases hnone
    · exact hreceived
  have hreceived : ∀ code, Received reader calls (showInt (run long reader calls).latest) code →
      code ∈ waiting long reader calls (showInt (run long reader calls).latest) := by
    intro code hcode
    have hnumber := long.valueOf_showInt (inInt64_latest long reader calls)
    exact mem_codesOf.mpr (mem_held_of_received long reader hchecks hnumber (Or.inr hcode))
  refine ⟨?_, ?_, ?_⟩
  · intro key hkey code hcode p hp hcontains
    have hgiven := hwaiting key code hcode
    obtain rfl := hcodes key code hgiven p hp hcontains
    rw [hkeys key code hgiven hkey] at hgiven
    exact hgiven
  · intro key hkey hne p hp hgiven
    obtain ⟨code, hcode⟩ := List.exists_mem_of_ne_nil _ hne
    rw [hkeys key code (hwaiting key code hcode) hkey]
    exact ⟨p, hreceived p hgiven, List.infix_rfl⟩
  · intro p _ hgiven
    exact ⟨_, List.infix_rfl, List.ne_nil_of_mem (hreceived p hgiven)⟩

/-- A check after any calls reports exactly the products that were not received
under the text of the tick, in whatever order the records are iterated, if and
only if no code that waits under a key with that text in it contains a product
that was not received, each such key has codes for all products that were, and
there is such a key if any product was. -/
theorem miss_check_exact_iff (calls : List Call) :
    (∀ order, ∀ p ∈ products, (run long reader calls).ReportedMissing order p ↔
      ¬ Received reader calls (showInt (run long reader calls).latest) p) ↔
    Unconfused long reader calls (showInt (run long reader calls).latest) := by
  constructor
  · intro h
    -- every key that waits under the tick is the first one in some order
    have hentry : ∀ key, Contains key (showInt (run long reader calls).latest) →
        waiting long reader calls key ≠ [] → ∀ p ∈ products,
        ((∃ code ∈ waiting long reader calls key, Contains code p) ↔
          Received reader calls (showInt (run long reader calls).latest) p) := by
      intro key hkey hwaiting p hp
      obtain ⟨value, hget⟩ := exists_get?_of_waiting long reader hwaiting
      have hexact := h (startingWith key) p hp
      rw [reportedMissing_of_found (found_startingWith hget hkey) hp, not_iff_not] at hexact
      rw [← (waiting_of_get? long reader hget).2 p (comma_notMem_product hp)]
      exact hexact
    refine ⟨?_, ?_, ?_⟩
    · intro key hkey code hcode p hp hcontains
      exact (hentry key hkey (List.ne_nil_of_mem hcode) p hp).mp ⟨code, hcode, hcontains⟩
    · intro key hkey hwaiting p hp hreceived
      exact (hentry key hkey hwaiting p hp).mpr hreceived
    · intro p hp hreceived
      have hnot := mt (h (startingWith "") p hp).mp (not_not.mpr hreceived)
      cases hfound : (run long reader calls).found (startingWith "") with
      | none => exact absurd (reportedMissing_of_not_found hfound p) hnot
      | some entry =>
          obtain ⟨hget, hkey⟩ := found_eq_some hfound
          exact ⟨entry.1, hkey, (waiting_of_get? long reader hget).1⟩
  · intro h order p hp
    cases hfound : (run long reader calls).found order with
    | none =>
        refine iff_of_true (reportedMissing_of_not_found hfound p) ?_
        intro hreceived
        obtain ⟨key, hkey, hwaiting⟩ := h.present p hp hreceived
        obtain ⟨value, hget⟩ := exists_get?_of_waiting long reader hwaiting
        exact found_eq_none hfound hget hkey
    | some entry =>
        obtain ⟨hget, hkey⟩ := found_eq_some hfound
        obtain ⟨hwaiting, hcontains⟩ := waiting_of_get? long reader hget
        rw [reportedMissing_of_found hfound hp, not_iff_not,
          hcontains p (comma_notMem_product hp)]
        constructor
        · rintro ⟨code, hcode, hproduct⟩
          exact h.codes entry.1 hkey code hcode p hp hproduct
        · exact h.keys entry.1 hkey hwaiting p hp

end

/-- `Long.valueOf` on texts of ASCII digits. -/
def decimalLong : LongReader where
  valueOf text :=
    let scan := scanInt (-2 ^ 63) (2 ^ 63 - 1) text.toList
    if scan.ok = true ∧ scan.rest = [] then some scan.value else none
  inInt64_of_valueOf := by
    intro text n h
    have hrange := scanInt_range (by decide : (-2 ^ 63 : Int) ≤ 0)
      (by decide : (0 : Int) ≤ 2 ^ 63 - 1) text.toList
    dsimp only at h
    split_ifs at h
    cases h
    exact ⟨hrange.1, by omega⟩
  valueOf_showInt := by
    intro n h
    have hscan := scanInt_showInt h.1 (Int.le_sub_one_of_lt h.2) (Or.inl rfl : Stops [])
    rw [List.append_nil] at hscan
    dsimp only
    rw [hscan, if_pos ⟨rfl, rfl⟩]

/-- A message about the code `rb40001`. -/
def longerCode : String := payloadOf ("LIMon_StatisticsFeed", "rb40001,1")

/-- The code `rb40001` arrives at tick 5 and nothing else does. The check of
that tick finds `rb4000` in it, and does not report that product. -/
theorem longer_code_hides_product :
    (run decimalLong textReader [.transform "5" longerCode]).latest = 5 ∧
      "rb4000" ∈ products ∧
      (∀ order, ¬ (run decimalLong textReader
        [.transform "5" longerCode]).ReportedMissing order "rb4000") ∧
      ¬ Received textReader [.transform "5" longerCode] (showInt 5) "rb4000" := by
  have hproduct : "rb4000" ∈ products := by decide +kernel
  have hcode : firstDetail textReader longerCode = .ok "rb40001" := by decide +kernel
  have hlatest : (run decimalLong textReader [.transform "5" longerCode]).latest = 5 := by
    decide +kernel
  have hentries : (run decimalLong textReader [.transform "5" longerCode]).records.entries =
      [("5", "rb40001")] := by
    decide +kernel
  refine ⟨hlatest, hproduct, ?_, ?_⟩
  · intro order
    have hperm := order.perm (run decimalLong textReader [.transform "5" longerCode]).records
    rw [hentries, List.perm_singleton] at hperm
    have hfound : (run decimalLong textReader [.transform "5" longerCode]).found order =
        some ("5", "rb40001") := by
      unfold found
      rw [hperm, hlatest]
      decide +kernel
    rw [reportedMissing_of_found hfound hproduct, not_not]
    decide +kernel
  · rintro ⟨recordValue, hmem, hdetail⟩
    obtain ⟨_, rfl⟩ := Call.transform.inj (List.mem_singleton.mp hmem)
    rw [hcode] at hdetail
    exact absurd (Except.ok.inj hdetail) (by decide)

end MyTransformer

end OLog
