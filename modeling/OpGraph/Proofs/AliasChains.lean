import OpGraph.Proofs.NormalizationSteps

/-!
# Chains of aliases

A table of aliases leads from a function to its replacement, from there to the next one, and so on
(`Rules.chain`).  The chain ends at a function without replacement, or it enters a cycle.  Following
the aliases of a function stops at a place of its chain before which no function comes twice, with a
function that has no replacement or has come before (`Rules.StopsAt`).  From this alone it follows
which function it is: the last one of the chain, or the first one that lies on a cycle.
-/

namespace OpGraph

namespace Rules

variable {aliases : FunctionMap FunctionPath} {function other last : FunctionPath}

/-! ### Chains -/

/-- The function that a number of replacements lead to, if there are so many. -/
def chain (aliases : FunctionMap FunctionPath) (function : FunctionPath) :
    Nat → Option FunctionPath
  | 0 => some function
  | place + 1 => (chain aliases function place).bind fun current => aliases[current]?

/-- The function comes again in its own chain. -/
def OnCycle (aliases : FunctionMap FunctionPath) (function : FunctionPath) : Prop :=
  ∃ length, 0 < length ∧ chain aliases function length = some function

theorem chain_add (aliases : FunctionMap FunctionPath) (function : FunctionPath)
    (place steps : Nat) :
    chain aliases function (place + steps) =
      (chain aliases function place).bind fun current => chain aliases current steps := by
  induction steps with
  | zero => exact (Option.bind_fun_some _).symm
  | succ steps ih =>
      rw [← Nat.add_assoc, chain, ih, Option.bind_assoc]
      rfl

theorem chain_add_of_eq_some {place : Nat}
    (reached : chain aliases function place = some other) (steps : Nat) :
    chain aliases function (place + steps) = chain aliases other steps := by
  rw [chain_add, reached, Option.bind_some]

theorem chain_succ_of_eq_some (listed : aliases[function]? = some other) (place : Nat) :
    chain aliases function (place + 1) = chain aliases other place := by
  have reached : chain aliases function 1 = some other := listed
  rw [Nat.add_comm, chain_add_of_eq_some reached]

/-- A chain has no gaps. -/
theorem exists_chain_eq_some {place : Nat} (reached : chain aliases function place = some last)
    {earlier : Nat} (before : earlier ≤ place) :
    ∃ current, chain aliases function earlier = some current := by
  obtain ⟨steps, rfl⟩ := Nat.exists_eq_add_of_le before
  rw [chain_add] at reached
  obtain ⟨current, found, -⟩ := Option.bind_eq_some_iff.mp reached
  exact ⟨current, found⟩

/-- A chain does not change when aliases are added. -/
theorem chain_of_subtable {smaller : FunctionMap FunctionPath}
    (kept : ∀ listed replacement : FunctionPath, smaller[listed]? = some replacement →
      aliases[listed]? = some replacement)
    {place : Nat} (reached : chain smaller function place = some last) :
    chain aliases function place = some last := by
  induction place generalizing last with
  | zero => exact reached
  | succ place ih =>
      obtain ⟨current, found, listed⟩ := Option.bind_eq_some_iff.mp reached
      exact Option.bind_eq_some_iff.mpr ⟨current, ih found, kept current last listed⟩

/-- The chain of a function on a cycle goes round. -/
theorem chain_mod {length : Nat} (back : chain aliases function length = some function)
    (place : Nat) : chain aliases function place = chain aliases function (place % length) := by
  have rounds (count : Nat) : chain aliases function (length * count) = some function := by
    induction count with
    | zero => rfl
    | succ count ih => rw [Nat.mul_succ, chain_add_of_eq_some ih, back]
  conv_lhs => rw [← Nat.div_add_mod place length]
  exact chain_add_of_eq_some (rounds _) _

theorem OnCycle.exists_chain (onCycle : OnCycle aliases function) (place : Nat) :
    ∃ current, chain aliases function place = some current := by
  obtain ⟨length, positive, back⟩ := onCycle
  rw [chain_mod back]
  exact exists_chain_eq_some back (Nat.le_of_lt (Nat.mod_lt place positive))

/-- A chain that comes to a cycle never ends. -/
theorem exists_chain_of_onCycle {entry : Nat} (reached : chain aliases function entry = some other)
    (onCycle : OnCycle aliases other) (place : Nat) :
    ∃ current, chain aliases function place = some current := by
  rcases Nat.le_total place entry with before | after
  · exact exists_chain_eq_some reached before
  · obtain ⟨steps, rfl⟩ := Nat.exists_eq_add_of_le after
    rw [chain_add_of_eq_some reached]
    exact onCycle.exists_chain steps

/-! ### Where the search stops -/

/-- The chain comes to `last` at a place before which no function comes twice, and `last` has no
replacement or has come before. -/
structure StopsAt (aliases : FunctionMap FunctionPath) (function : FunctionPath) (place : Nat)
    (last : FunctionPath) : Prop where
  reached : chain aliases function place = some last
  distinct : ∀ earlier later, earlier < later → later < place →
    chain aliases function earlier ≠ chain aliases function later
  ended : aliases[last]? = none ∨
    ∃ earlier, earlier < place ∧ chain aliases function earlier = some last

theorem getElem?_of_erase {listed replacement : FunctionPath}
    (found : (aliases.erase function)[listed]? = some replacement) :
    listed ≠ function ∧ aliases[listed]? = some replacement := by
  by_cases same : listed = function
  · subst same
    rw [Std.ExtTreeMap.getElem?_erase_self] at found
    cases found
  · exact ⟨same, (getElem?_erase_of_ne same).symm.trans found⟩

/-- If the search from the replacement stops when the alias is used up, the search from the function
stops one place later. -/
theorem StopsAt.succ {replacement : FunctionPath} {place : Nat}
    (listed : aliases[function]? = some replacement)
    (stops : StopsAt (aliases.erase function) replacement place last) :
    StopsAt aliases function (place + 1) last := by
  have onward (steps : Nat) := chain_succ_of_eq_some listed steps
  have lifted {steps : Nat} {current : FunctionPath}
      (found : chain (aliases.erase function) replacement steps = some current) :
      chain aliases replacement steps = some current :=
    chain_of_subtable (fun _ _ found => (getElem?_of_erase found).2) found
  -- What the shorter search passes has a replacement left, so it is not the used function.
  have passed {steps : Nat} (before : steps < place) :
      ∃ current, chain (aliases.erase function) replacement steps = some current ∧
        current ≠ function := by
    obtain ⟨next, found⟩ := exists_chain_eq_some stops.reached (Nat.succ_le_of_lt before)
    obtain ⟨current, isCurrent, remaining⟩ := Option.bind_eq_some_iff.mp found
    exact ⟨current, isCurrent, (getElem?_of_erase remaining).1⟩
  refine ⟨(onward place).trans (lifted stops.reached), ?_, ?_⟩
  · intro earlier later less below
    obtain ⟨later, rfl⟩ := Nat.exists_eq_succ_of_ne_zero (Nat.ne_zero_of_lt less)
    obtain ⟨current, found, different⟩ := passed (Nat.lt_of_succ_lt_succ below)
    rw [onward, lifted found]
    cases earlier with
    | zero =>
        intro same
        exact different (Option.some.inj same).symm
    | succ earlier =>
        have less := Nat.lt_of_succ_lt_succ less
        obtain ⟨first, isFirst, -⟩ := passed (less.trans (Nat.lt_of_succ_lt_succ below))
        rw [onward, lifted isFirst]
        have apart := stops.distinct earlier later less (Nat.lt_of_succ_lt_succ below)
        rwa [isFirst, found] at apart
  · rcases stops.ended with unlisted | ⟨earlier, before, found⟩
    · by_cases same : last = function
      · exact Or.inr ⟨0, Nat.succ_pos place, congrArg some same.symm⟩
      · exact Or.inl ((getElem?_erase_of_ne same).symm.trans unlisted)
    · exact Or.inr ⟨earlier + 1, Nat.succ_lt_succ before, (onward earlier).trans (lifted found)⟩

/-- Following aliases stops after at most as many replacements as there are aliases. -/
theorem exists_stopsAt (aliases : FunctionMap FunctionPath) (function : FunctionPath) :
    ∃ place ≤ aliases.size, StopsAt aliases function place (followAliases aliases function) := by
  induction aliases, function using followAliases.induct with
  | case1 aliases function replacement listed ih =>
      obtain ⟨place, bound, stops⟩ := ih
      rw [followAliases_of_some listed]
      exact ⟨place + 1, bound.trans_lt (size_erase_lt listed), stops.succ listed⟩
  | case2 aliases function unlisted =>
      rw [followAliases_of_none unlisted]
      exact ⟨0, Nat.zero_le _, rfl, fun _ _ _ below => absurd below (Nat.not_lt_zero _),
        Or.inl unlisted⟩

/-- A function that has come before where the search stops is on a cycle, and it is the first such
function of the chain. -/
theorem StopsAt.first_onCycle {place entry : Nat} (stops : StopsAt aliases function place last)
    (before : entry < place) (found : chain aliases function entry = some last) :
    OnCycle aliases last ∧ ∀ earlier < entry, ∀ current,
      chain aliases function earlier = some current → ¬OnCycle aliases current := by
  obtain ⟨length, rfl⟩ := Nat.exists_eq_add_of_le (Nat.le_of_lt before)
  have positive : 0 < length := by omega
  have back : chain aliases last length = some last :=
    (chain_add_of_eq_some found length).symm.trans stops.reached
  refine ⟨⟨length, positive, back⟩, ?_⟩
  rintro earlier early current isCurrent ⟨round, positiveRound, again⟩
  -- After going round, the chain is at the function again, but at a place where others are.
  have repeated : chain aliases function (earlier + round) = chain aliases function earlier := by
    rw [chain_add_of_eq_some isCurrent, again, isCurrent]
  rcases Nat.lt_or_ge (earlier + round) entry with outside | inside
  · exact stops.distinct earlier (earlier + round) (by omega) (by omega) repeated.symm
  · obtain ⟨steps, place⟩ := Nat.exists_eq_add_of_le inside
    have inRound : steps % length < length := Nat.mod_lt steps positive
    refine stops.distinct earlier (entry + steps % length) (by omega) (by omega) ?_
    rw [← repeated, place, chain_add_of_eq_some found, chain_add_of_eq_some found, ← chain_mod back]

/-! ### Canonical functions -/

/-- A function without replacement ends the search, and so does a function on a cycle. -/
theorem followAliases_eq_self_iff :
    followAliases aliases function = function ↔
      aliases[function]? = none ∨ OnCycle aliases function := by
  obtain ⟨place, -, stops⟩ := exists_stopsAt aliases function
  constructor
  · intro same
    rw [same] at stops
    cases place with
    | zero =>
        refine stops.ended.imp id ?_
        rintro ⟨_, impossible, -⟩
        exact absurd impossible (Nat.not_lt_zero _)
    | succ place => exact Or.inr ⟨place + 1, Nat.succ_pos place, stops.reached⟩
  · rintro (unlisted | onCycle)
    · exact followAliases_of_none unlisted
    · rcases stops.ended with unlisted | ⟨entry, before, found⟩
      · obtain ⟨next, impossible⟩ := onCycle.exists_chain (place + 1)
        rw [chain, stops.reached, Option.bind_some, unlisted] at impossible
        cases impossible
      · obtain ⟨-, first⟩ := stops.first_onCycle before found
        cases entry with
        | zero => exact (Option.some.inj found).symm
        | succ entry => exact absurd onCycle (first 0 (Nat.succ_pos entry) function rfl)

/-- The canonical name of a function is the end of its chain of aliases if the chain is finite, and
otherwise the first function of the chain that lies on a cycle.  It is found after at most as many
replacements as there are aliases, and it is its own canonical name.  A function is its own
canonical name exactly if it has no replacement or lies on a cycle. -/
theorem canonical_closes_replacements (rules : Rules) (function : FunctionPath) :
    ((∃ place ≤ rules.aliases.size,
        chain rules.aliases function place = some (rules.canonical function) ∧
          rules.aliases[rules.canonical function]? = none) ∨
      (∀ place, (chain rules.aliases function place).isSome = true) ∧
        ∃ place ≤ rules.aliases.size,
          chain rules.aliases function place = some (rules.canonical function) ∧
            OnCycle rules.aliases (rules.canonical function) ∧
            ∀ earlier < place, ∀ other, chain rules.aliases function earlier = some other →
              ¬OnCycle rules.aliases other) ∧
    rules.canonical (rules.canonical function) = rules.canonical function ∧
    (rules.canonical function = function ↔
      rules.aliases[function]? = none ∨ OnCycle rules.aliases function) := by
  refine ⟨?_, canonical_canonical rules function, followAliases_eq_self_iff⟩
  obtain ⟨place, bound, stops⟩ := exists_stopsAt rules.aliases function
  rcases stops.ended with unlisted | ⟨entry, before, found⟩
  · exact Or.inl ⟨place, bound, stops.reached, unlisted⟩
  · obtain ⟨onCycle, first⟩ := stops.first_onCycle before found
    refine Or.inr ⟨fun later => Option.isSome_iff_exists.mpr
      (exists_chain_of_onCycle found onCycle later), entry, ?_, found, onCycle, first⟩
    exact Nat.le_of_lt (before.trans_le bound)

-- A chain that leads into a cycle ends where it enters the cycle.
example : followAliases ((((∅ : FunctionMap FunctionPath).insert ⟨"tail"⟩ ⟨"first"⟩).insert
    ⟨"first"⟩ ⟨"second"⟩).insert ⟨"second"⟩ ⟨"first"⟩) ⟨"tail"⟩ = ⟨"first"⟩ := by decide +kernel

end Rules

end OpGraph
