import FormalLang.Proofs.Dfa.StrictMinimize
import FormalLang.Proofs.Dfa.Subset
import FormalLang.Proofs.Nfa.Constructible

/-!
# Deterministic automata are safe to use

A `Dfa` holds what the check of its tables has found: every state in range has a row, rows have symbols of the alphabet only, and
their targets are states. The strict operations rely on this and on nothing else, so it does not matter where the automaton
comes from: from tables, from a text, from a nondeterministic automaton or from minimization. The last two make tables
themselves, which pass the check.

* `Dfa.IsSafe`: the strict operations on the parts find what they look up.
* `Dfa.isSafe`: every automaton is safe.
* `Dfa.exists_foldlM_minimize`: minimization may be repeated.
* `Nfa.Constructible.exists_ofNfa`: the tables on closed sets pass the check.
-/

namespace FormalLang

namespace Dfa

/-- The strict operations find what they look up in the parts of the automaton, and minimization also makes tables that pass the
check. -/
structure IsSafe (d : Dfa) : Prop where
  accepts_eq : ∀ text, d.parts.accepts text = .ok (d.accepts text)
  marks_eq : d.parts.marks = .ok d.marks
  equivalentPairs_eq : d.parts.equivalentPairs = .ok d.equivalentPairs
  minimize_eq : ∀ flags, ∃ m, d.parts.minimize flags = .ok (.ok m) ∧ d.minimize flags = .ok m
  diagram_eq : d.parts.diagram = .ok d.diagram
  dump_eq : d.parts.dump = .ok d.dump
  grammar_eq : d.parts.grammar = .ok (Grammar.ofDfa d)

theorem isSafe (d : Dfa) : d.IsSafe where
  accepts_eq := accepts_parts d
  marks_eq := marks_parts d
  equivalentPairs_eq := equivalentPairs_parts d
  minimize_eq flags := by
    obtain ⟨m, hm, -⟩ := exists_minimize d flags
    exact ⟨m, (minimize_parts d flags).trans (congrArg _ hm), hm⟩
  diagram_eq := diagram_parts d
  dump_eq := dump_parts d
  grammar_eq := grammar_parts d

/-- Rows with as many symbols as there are, but not those of the alphabet: they are taken for complete. -/
example : DfaParts.marks ⟨2, [.ofList [("a", 0)], .ofList [("a", 1)]], 0, ∅, .ofList ["b"]⟩ = .error (.symbol "b") := by decide

/-- A target without a row. -/
example : DfaParts.accepts ⟨1, [.ofList [("a", 1)]], 0, ∅, .ofList ["a"]⟩ "aa" = .error (.place 1) := by decide

/-- Minimization may be repeated. -/
theorem exists_foldlM_minimize (d : Dfa) (fs : List BuildFlags) :
    ∃ m, fs.foldlM (fun (d : Dfa) flags => d.minimize flags) d = .ok m := by
  induction fs generalizing d with
  | nil => exact ⟨d, rfl⟩
  | cons flags fs ih =>
    obtain ⟨m, hm, -⟩ := exists_minimize d flags
    obtain ⟨m', hm'⟩ := ih m
    exact ⟨m', bind_eq_ok_iff.mpr ⟨m, hm, hm'⟩⟩

end Dfa

/-- The subset construction succeeds if there is a state to start in: the tables on the closed sets pass the check. -/
theorem Nfa.Constructible.exists_ofNfa {n : Nfa} {s : OrderedSet Nat} (h : n.Constructible) (hs : n.initial = .ok s)
    (flags : BuildFlags) : ∃ d, Dfa.ofNfa n flags = .ok d := by
  obtain ⟨starts, hstarts, -⟩ := bind_eq_ok_iff.mp hs
  rw [List.reverse_singleton, List.mapM_cons] at hstarts
  obtain ⟨q, hq, -⟩ := bind_eq_ok_iff.mp hstarts
  have hpos : 0 < n.count := Nat.zero_lt_of_lt (lt_of_checkState hq)
  obtain ⟨d, hd, -⟩ := Dfa.exists_ofNfa (h.consistent.start_lt hpos) h.consistent.target_lt flags
  exact ⟨d, hd⟩

namespace Dfa

/-- Whatever an automaton has been made from, it is safe, and so is each one that repeated minimization makes of it, which never
fails. Nor does the subset construction, if there is a state to start in. -/
theorem constructions_safe :
    (∀ (d : Dfa) (fs : List BuildFlags), ∃ m, fs.foldlM (fun (d : Dfa) flags => d.minimize flags) d = .ok m ∧ m.IsSafe) ∧
      ∀ n : Nfa, n.Constructible → ∀ s, n.initial = .ok s → ∀ flags, ∃ d, ofNfa n flags = .ok d := by
  refine ⟨fun d fs => ?_, fun n h s hs flags => h.exists_ofNfa hs flags⟩
  obtain ⟨m, hm⟩ := exists_foldlM_minimize d fs
  exact ⟨m, hm, m.isSafe⟩

/-- A state without transitions and an automaton with a loop. -/
theorem constructions_safe_partial :
    ∃ d n s, ofTables ⟨2, 0, [1], [.ofList [("a", 1)], ∅], none⟩ = .ok d ∧ d.parts.accepts "aa" = .ok false ∧
      (∃ m, [d.flags, {}].foldlM (fun (d : Dfa) flags => d.minimize flags) d = .ok m ∧ m.IsSafe) ∧
      n = Nfa.ofRegex (.star (.literal "a")) ∧ n.Constructible ∧ n.initial = .ok s ∧ ∃ d, ofNfa n = .ok d := by
  obtain ⟨d, hd⟩ : ∃ d, ofTables ⟨2, 0, [1], [.ofList [("a", 1)], ∅], none⟩ = .ok d := ⟨_, rfl⟩
  obtain ⟨hsafe, hsubsets⟩ := constructions_safe
  have hn := Nfa.constructible_ofRegex (.star (.literal "a")) {}
  have hs := Nfa.initial_eq (n := Nfa.ofRegex (.star (.literal "a"))) (by decide)
  obtain ⟨d₀, hd₀, hd₀s⟩ := hsafe d []
  obtain rfl : d = d₀ := Except.ok.inj hd₀
  have haccepts : d.accepts "aa" = false := by
    obtain rfl := Except.ok.inj hd
    decide
  exact ⟨d, _, _, hd, haccepts ▸ hd₀s.accepts_eq "aa", hsafe d _, rfl, hn, hs, hsubsets _ hn _ hs _⟩

end Dfa

end FormalLang
