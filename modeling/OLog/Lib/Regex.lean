import Mathlib.Data.List.Basic
import Mathlib.Tactic.Common

/-!
Regular expressions with named groups, as a backtracking engine runs them. The
result is the list of all ways to match a front part of the text, in the order
in which the engine would try them; what it reports is the first one.
-/

namespace OLog.Lib

inductive Regex where
  | empty
  /-- One character of a class. -/
  | char (accept : Char → Bool)
  /-- `[...]+`, which takes as much as it can and gives back one by one. -/
  | plus (accept : Char → Bool)
  | seq (first second : Regex)
  /-- `(?<name>...)` -/
  | group (name : String) (body : Regex)
  /-- `$` -/
  | lineEnd

/-- What the groups took, outermost and leftmost first, and the unread text. -/
structure RegexMatch where
  captures : List (String × List Char)
  rest : List Char
  deriving DecidableEq, Repr

/-- What is left after one or more characters of a class, greediest first. -/
def plusRests (accept : Char → Bool) : List Char → List (List Char)
  | [] => []
  | c :: rest => if accept c then plusRests accept rest ++ [rest] else []

namespace Regex

def run : Regex → List Char → List RegexMatch
  | .empty, text => [⟨[], text⟩]
  | .char _, [] => []
  | .char accept, c :: rest => if accept c then [⟨[], rest⟩] else []
  | .plus accept, text => (plusRests accept text).map (fun rest => ⟨[], rest⟩)
  | .seq first second, text => (first.run text).flatMap (fun m =>
      (second.run m.rest).map (fun m' => ⟨m.captures ++ m'.captures, m'.rest⟩))
  | .group name body, text => (body.run text).map (fun m =>
      ⟨(name, text.take (text.length - m.rest.length)) :: m.captures, m.rest⟩)
  | .lineEnd, text => if text = [] ∨ text.head? = some '\n' then [⟨[], text⟩] else []

/-- The match that is reported. -/
def find? (r : Regex) (text : List Char) : Option RegexMatch := (r.run text).head?

/-- One regular expression after the other. -/
def ofList (rs : List Regex) : Regex := rs.foldr seq empty

def literal (text : List Char) : Regex := ofList (text.map (fun c => char (· == c)))

def times (n : Nat) (accept : Char → Bool) : Regex := ofList (List.replicate n (char accept))

/-- The matches of the rest of an expression, behind some captures. -/
def after (captures : List (String × List Char)) (found : List RegexMatch) :
    List RegexMatch :=
  found.map (fun m => ⟨captures ++ m.captures, m.rest⟩)

@[simp] theorem after_nil (found : List RegexMatch) : after [] found = found := by
  simp [after]

theorem run_seq_of_single {first second : Regex} {text rest : List Char}
    {captures : List (String × List Char)} (h : first.run text = [⟨captures, rest⟩]) :
    (seq first second).run text = after captures (second.run rest) := by
  simp [run, h, after]

theorem run_seq_of_nil {first second : Regex} {text : List Char} (h : first.run text = []) :
    (seq first second).run text = [] := by
  simp [run, h]

theorem ofList_cons (r : Regex) (rs : List Regex) : ofList (r :: rs) = seq r (ofList rs) := rfl

@[simp] theorem run_char (accept : Char → Bool) (c : Char) (rest : List Char) :
    (char accept).run (c :: rest) = if accept c then [⟨[], rest⟩] else [] := rfl

theorem run_literal_append (word rest : List Char) :
    (literal word).run (word ++ rest) = [⟨[], rest⟩] := by
  induction word with
  | nil => rfl
  | cons c word ih =>
      have hchar : (char (· == c)).run (c :: (word ++ rest)) = [⟨[], word ++ rest⟩] := by simp
      exact (run_seq_of_single hchar).trans ((after_nil _).trans ih)

theorem run_ofList_literal (word rest : List Char) (rs : List Regex) :
    (ofList (literal word :: rs)).run (word ++ rest) = (ofList rs).run rest :=
  (run_seq_of_single (run_literal_append word rest)).trans (after_nil _)

theorem run_ofList_char {accept : Char → Bool} {c : Char} (hc : accept c = true)
    (rest : List Char) (rs : List Regex) :
    (ofList (char accept :: rs)).run (c :: rest) = (ofList rs).run rest := by
  have hchar : (char accept).run (c :: rest) = [⟨[], rest⟩] := by simp [hc]
  exact (run_seq_of_single hchar).trans (after_nil _)

theorem run_times_append {accept : Char → Bool} {word : List Char}
    (hword : ∀ c ∈ word, accept c = true) (rest : List Char) :
    (times word.length accept).run (word ++ rest) = [⟨[], rest⟩] := by
  induction word with
  | nil => rfl
  | cons c word ih =>
      obtain ⟨hc, hword⟩ := List.forall_mem_cons.mp hword
      have hchar : (char accept).run (c :: (word ++ rest)) = [⟨[], word ++ rest⟩] := by simp [hc]
      exact (run_seq_of_single hchar).trans ((after_nil _).trans (ih hword))

theorem mem_run_seq {first second : Regex} {text : List Char} {m : RegexMatch}
    (h : m ∈ (seq first second).run text) :
    ∃ m₁ ∈ first.run text, ∃ m₂ ∈ second.run m₁.rest, m₂.rest = m.rest := by
  obtain ⟨m₁, hm₁, hm⟩ := List.mem_flatMap.mp h
  obtain ⟨m₂, hm₂, rfl⟩ := List.mem_map.mp hm
  exact ⟨m₁, hm₁, m₂, hm₂, rfl⟩

theorem mem_run_char {accept : Char → Bool} {text : List Char} {m : RegexMatch}
    (h : m ∈ (char accept).run text) : ∃ c, accept c = true ∧ text = c :: m.rest := by
  cases text with
  | nil => cases h
  | cons c rest =>
      rw [run_char] at h
      split_ifs at h with hc
      · rw [List.mem_singleton.mp h]
        exact ⟨c, hc, rfl⟩
      · cases h

theorem mem_run_times {n : Nat} {accept : Char → Bool} {text : List Char} {m : RegexMatch}
    (h : m ∈ (times n accept).run text) :
    ∃ word, text = word ++ m.rest ∧ word.length = n ∧ ∀ c ∈ word, accept c = true := by
  induction n generalizing text m with
  | zero =>
      rw [List.mem_singleton.mp h]
      exact ⟨[], rfl, rfl, List.forall_mem_nil _⟩
  | succ n ih =>
      obtain ⟨m₁, hm₁, m₂, hm₂, hrest⟩ := mem_run_seq h
      obtain ⟨c, hc, rfl⟩ := mem_run_char hm₁
      obtain ⟨word, hword, rfl, hall⟩ := ih hm₂
      exact ⟨c :: word, by rw [hword, hrest]; rfl, rfl, List.forall_mem_cons.mpr ⟨hc, hall⟩⟩

theorem mem_run_literal {word text : List Char} {m : RegexMatch}
    (h : m ∈ (literal word).run text) : text = word ++ m.rest := by
  induction word generalizing text m with
  | nil =>
      rw [List.mem_singleton.mp h]
      rfl
  | cons c word ih =>
      obtain ⟨m₁, hm₁, m₂, hm₂, hrest⟩ := mem_run_seq h
      obtain ⟨d, hd, rfl⟩ := mem_run_char hm₁
      rw [ih hm₂, hrest, eq_of_beq hd]
      rfl

/-- A literal does not match what begins with another character. -/
theorem run_literal_cons_ne {c d : Char} (hne : d ≠ c) (word text : List Char) :
    (literal (c :: word)).run (d :: text) = [] := by
  have hchar : (char (· == c)).run (d :: text) = [] := by simp [hne]
  exact run_seq_of_nil hchar

/-- The greediest way takes the whole word; every other one stops in front of a
character of the word. -/
theorem plusRests_append {accept : Char → Bool} {word rest : List Char}
    (hword : ∀ c ∈ word, accept c = true) (hne : word ≠ [])
    (hrest : ∀ c ∈ rest.head?, accept c = false) :
    ∃ others, plusRests accept (word ++ rest) = rest :: others ∧
      ∀ t ∈ others, ∃ c tail, t = c :: tail ∧ accept c = true := by
  induction word with
  | nil => exact absurd rfl hne
  | cons c word ih =>
      obtain ⟨hc, hword⟩ := List.forall_mem_cons.mp hword
      cases word with
      | nil =>
          have hstop : plusRests accept rest = [] := by
            cases rest with
            | nil => rfl
            | cons d rest => simp [plusRests, hrest d rfl]
          exact ⟨[], by simp [plusRests, hc, hstop], fun t ht => by cases ht⟩
      | cons d word =>
          obtain ⟨others, hothers, hall⟩ := ih hword (List.cons_ne_nil _ _)
          refine ⟨others ++ [d :: word ++ rest], ?_, ?_⟩
          · simp only [List.cons_append] at hothers ⊢
            rw [plusRests, if_pos hc, hothers, List.cons_append]
          · intro t ht
            rcases List.mem_append.mp ht with ht | ht
            · exact hall t ht
            · rw [List.mem_singleton.mp ht]
              exact ⟨d, word ++ rest, rfl, hword d List.mem_cons_self⟩

/-- A named class and an expression that cannot start with a character of it:
the group takes the whole word. -/
theorem run_group_plus_seq {accept : Char → Bool} {name : String} {word rest : List Char}
    {second : Regex} (hword : ∀ c ∈ word, accept c = true) (hne : word ≠ [])
    (hrest : ∀ c ∈ rest.head?, accept c = false)
    (hsecond : ∀ c tail, accept c = true → second.run (c :: tail) = []) :
    (seq (group name (plus accept)) second).run (word ++ rest) =
      after [(name, word)] (second.run rest) := by
  obtain ⟨others, hothers, hall⟩ := plusRests_append hword hne hrest
  have htaken : (word ++ rest).take ((word ++ rest).length - rest.length) = word := by simp
  have hnone : ∀ t ∈ others, second.run t = [] := by
    intro t ht
    obtain ⟨c, tail, rfl, hc⟩ := hall t ht
    exact hsecond c tail hc
  simp only [run, hothers, List.map_cons, List.map_map, List.flatMap_cons, htaken]
  rw [List.flatMap_map, List.flatMap_eq_nil_iff.mpr, List.append_nil]
  · rfl
  · intro t ht
    simp [hnone t ht]

end Regex

end OLog.Lib
