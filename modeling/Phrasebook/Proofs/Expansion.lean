import Phrasebook.Proofs.Distinct
import Phrasebook.Proofs.Ensures

/-!
Every way to make a sentence, repeats included.

The enumeration drops repeats as soon as they appear, which is fast and not obviously right:
what is dropped at a token can no longer be put in another form further out.  `expand…` is
the same walk without any dropping, every way to make a sentence in its place.  Dropping
once, at the end of it, is the meaning that the enumeration should have, and the enumeration
has it as long as no casing tells apart examples that count as the same sentence.  The
casings of a template are then *impartial*.

Which templates these are is a question about their texts, answered in
`Proofs.Impartiality`; here it is a condition at every token that has a casing.
-/

namespace Phrasebook

/-! ### One token -/

namespace Casing

/-- The casings that one stands for. -/
def resolved : Casing → List Casing
  | .either => [.lowercase, .capitalize]
  | c => [c]

end Casing

namespace Modifiers

/-- The ways to make a token that holds what is given. -/
def expand (m : Modifiers) (base : List Example) : List Example :=
  let cased := base.flatMap fun e => m.casing.resolved.map fun c => e.recase c
  if m.mayBeAbsent then cased ++ [.empty] else cased

theorem spread_eq (m : Modifiers) (base : List Example) :
    m.spread base = distinct (m.expand base) := by
  unfold spread expand
  cases m.casing <;> simp [Casing.resolved, List.map_eq_flatMap]

theorem length_expand (m : Modifiers) (base : List Example) :
    (m.expand base).length = base.length * m.casing.forms + (if m.mayBeAbsent then 1 else 0) := by
  unfold expand
  split
  · cases m.casing <;> simp [Casing.resolved, Casing.forms, List.length_flatMap]
  · cases m.casing <;> simp [Casing.resolved, Casing.forms, List.length_flatMap]

theorem spread_singleton {m : Modifiers} (hcasing : m.casing ≠ .either) (hchance : m.chance = none)
    (e : Example) : m.spread [e] = [e.recase m.casing] := by
  rw [spread_eq, expand]
  cases h : m.casing with
  | either => exact absurd h hcasing
  | unchanged => simp [Casing.resolved, mayBeAbsent, hchance]
  | capitalize => simp [Casing.resolved, mayBeAbsent, hchance]
  | lowercase => simp [Casing.resolved, mayBeAbsent, hchance]

/-- The casing makes the same sentence of examples that are the same sentence. -/
def Impartial (m : Modifiers) (base : List Example) : Prop :=
  ∀ c ∈ m.casing.resolved, ∀ a ∈ base, ∀ b ∈ base, a.key = b.key →
    (a.recase c).key = (b.recase c).key

theorem spread_distinct {m : Modifiers} {base : List Example} (h : m.Impartial base) :
    m.spread (distinct base) = distinct (m.expand base) := by
  have hcased :
      distinct ((distinct base).flatMap fun e => m.casing.resolved.map fun c => e.recase c) =
        distinct (base.flatMap fun e => m.casing.resolved.map fun c => e.recase c) := by
    refine distinct_flatMap_distinct fun a ha b hb hkey => ?_
    simp only [List.map_map]
    exact List.map_congr_left fun c hc => h c hc a ha b hb hkey
  rw [spread_eq]
  unfold expand
  split
  · exact distinct_append_congr hcased rfl
  · exact hcased

end Modifiers

/-! ### Whole templates -/

section

variable (answer : String → Reference → Sentences) (scope : Scope)

mutual

/-- Each of the given sentences with every way to make tokens behind it. -/
def expandTokens (fronts : List Example) : List Token → Sentences
  | [] => .ok fronts
  | token :: rest => do
    let backs ← expandToken token
    expandTokens (fronts.flatMap fun front => backs.map front.append) rest

/-- Every way to make a token. -/
def expandToken : Token → Sentences
  | .word text m =>
    if m.isAbsent then .ok [.empty] else .ok (m.expand [.ofText (scope.render text)])
  | .group rules m =>
    if m.isAbsent then .ok [.empty]
    else do
      let base ← expandRules (fun _ e => e) rules
      return m.expand base
  | .reference target m =>
    if m.isAbsent then .ok [.empty]
    else do
      let base ← answer scope.owner ⟨target, m⟩
      return m.expand base

/-- Every way to make a sentence of one of the reachable rules, rule by rule, each finished. -/
def expandRules (finish : Rule → Example → Example) : List Rule → Sentences
  | [] => .ok []
  | .mk tokens weight value :: rest => do
    let rule := Rule.mk tokens weight value
    if rule.isReachable then do
      let here ← expandTokens [.empty] tokens
      return here.map (finish rule) ++ (← expandRules finish rest)
    else expandRules finish rest

end

theorem expandRules_cons (finish : Rule → Example → Example) (rule : Rule) (rest : List Rule) :
    expandRules answer scope finish (rule :: rest) =
      if rule.isReachable then
        expandTokens answer scope [.empty] rule.tokens >>= fun here =>
          expandRules answer scope finish rest >>= fun later =>
            .ok (here.map (finish rule) ++ later)
      else expandRules answer scope finish rest := by
  obtain ⟨tokens, weight, value⟩ := rule
  rw [expandRules]
  rfl

/-- The ways to make a sentence of a rule stand in front of those of the rules behind it; a rule
that is never used has none. -/
theorem of_expandRules_cons {answer : String → Reference → Sentences} {scope : Scope}
    {finish : Rule → Example → Example} {rule : Rule} {rest : List Rule} {es : List Example}
    (h : expandRules answer scope finish (rule :: rest) = .ok es) :
    (rule.isReachable = true ∧ ∃ here later,
        expandTokens answer scope [.empty] rule.tokens = .ok here ∧
        expandRules answer scope finish rest = .ok later ∧
        here.map (finish rule) ++ later = es) ∨
      rule.isReachable ≠ true ∧ expandRules answer scope finish rest = .ok es := by
  rw [expandRules_cons] at h
  by_cases hreach : rule.isReachable = true
  · rw [if_pos hreach] at h
    obtain ⟨here, hhere, h⟩ := bind_eq_ok.mp h
    obtain ⟨later, hlater, h⟩ := bind_eq_ok.mp h
    exact Or.inl ⟨hreach, here, later, hhere, hlater, Except.ok.inj h⟩
  · rw [if_neg hreach] at h
    exact Or.inr ⟨hreach, h⟩

variable (impartial : String → Reference → Prop)

mutual

/-- The casings in tokens are impartial. -/
def ImpartialTokens : List Token → Prop
  | [] => True
  | token :: rest => ImpartialToken token ∧ ImpartialTokens rest

/-- The casings in a token are impartial, that of the token itself included.  A word has one
text only, which no casing can tell from itself. -/
def ImpartialToken : Token → Prop
  | .word _ _ => True
  | .group rules m =>
    m.isAbsent = false → ImpartialRules rules ∧
      ∀ base, expandRules answer scope (fun _ e => e) rules = .ok base → m.Impartial base
  | .reference target m =>
    m.isAbsent = false → impartial scope.owner ⟨target, m⟩ ∧
      ∀ base, answer scope.owner ⟨target, m⟩ = .ok base → m.Impartial base

/-- The casings in the reachable ones among rules are impartial. -/
def ImpartialRules : List Rule → Prop
  | [] => True
  | .mk tokens weight value :: rest =>
    ((Rule.mk tokens weight value).isReachable = true → ImpartialTokens tokens) ∧
      ImpartialRules rest

end

end

namespace Definition

/-- Every way to make a sentence of a definition where it is used. -/
def expand (answer : String → Reference → Sentences) (d : Definition)
    (variation : Option String) (arguments : List Text) : Sentences := do
  let rules ← d.select variation
  expandRules answer (.ofDefinition d arguments) d.finish rules

/-- The casings in a definition are impartial where it is used. -/
def Impartial (answer : String → Reference → Sentences) (impartial : String → Reference → Prop)
    (d : Definition) (variation : Option String) (arguments : List Text) : Prop :=
  ∀ rules, d.select variation = .ok rules →
    ImpartialRules answer (.ofDefinition d arguments) impartial rules

end Definition

/-- Answers a reference from definitions that each refer only to later ones. -/
def expandIn : List Definition → String → Reference → Sentences
  | [], owner, r => .error (.unresolved owner r.target)
  | d :: below, owner, r =>
    if d.key = r.target then
      d.expand (expandIn below) r.modifiers.variation r.modifiers.arguments
    else expandIn below owner r

/-- Whether the casings behind a reference are impartial, along definitions that each refer
only to later ones. -/
def impartialIn : List Definition → String → Reference → Prop
  | [], _, _ => True
  | d :: below, owner, r =>
    if d.key = r.target then
      d.Impartial (expandIn below) (impartialIn below) r.modifiers.variation r.modifiers.arguments
    else impartialIn below owner r

namespace Graph

/-- Every way to make a sentence of a use of a definition. -/
def expand (g : Graph) : String → Reference → Sentences := expandIn g.layers

/-- The casings behind a use of a definition are impartial. -/
def Impartial (g : Graph) : String → Reference → Prop := impartialIn g.layers

end Graph

/-! ### Early dropping loses nothing -/

section

variable {answer answer' : String → Reference → Sentences} {impartial : String → Reference → Prop}
  {scope : Scope}

mutual

theorem enumerateTokens_eq
    (hanswer : ∀ owner r, impartial owner r → answer' owner r = distinct <$> answer owner r) :
    ∀ (tokens : List Token) (fronts : List Example),
      ImpartialTokens answer scope impartial tokens →
      enumerateTokens answer' scope (distinct fronts) tokens =
        distinct <$> expandTokens answer scope fronts tokens
  | [], fronts, _ => by
      rw [enumerateTokens, expandTokens]
      rfl
  | token :: rest, fronts, h => by
      rw [ImpartialTokens] at h
      rw [enumerateTokens, expandTokens, enumerateToken_eq hanswer token h.1]
      cases hbacks : expandToken answer scope token with
      | error e => rfl
      | ok backs =>
          show enumerateTokens answer' scope (sideBySide (distinct fronts) (distinct backs)) rest =
            distinct <$> expandTokens answer scope
              (fronts.flatMap fun front => backs.map front.append) rest
          rw [sideBySide_distinct]
          exact enumerateTokens_eq hanswer rest _ h.2

theorem enumerateToken_eq
    (hanswer : ∀ owner r, impartial owner r → answer' owner r = distinct <$> answer owner r) :
    ∀ token : Token, ImpartialToken answer scope impartial token →
      enumerateToken answer' scope token = distinct <$> expandToken answer scope token
  | .word text m, _ => by
      rw [enumerateToken, expandToken]
      split
      · exact congrArg Except.ok (distinct_singleton _).symm
      · exact congrArg Except.ok (m.spread_eq _)
  | .group rules m, h => by
      rw [ImpartialToken] at h
      rw [enumerateToken, expandToken]
      cases habsent : m.isAbsent with
      | true => exact congrArg Except.ok (distinct_singleton _).symm
      | false =>
          obtain ⟨hrules, hcasing⟩ := h habsent
          have hbase := enumerateRules_eq hanswer (fun _ e => e) (fun _ _ => rfl) rules hrules
          rcases map_eq_map_cases hbase with ⟨e, henum, hexpand⟩ | ⟨es, base, henum, hexpand, heq⟩
          · rw [henum, hexpand]
            rfl
          · rw [henum, hexpand]
            show Except.ok (m.spread (distinct es)) = Except.ok (distinct (m.expand base))
            rw [heq, Modifiers.spread_distinct (hcasing base hexpand)]
  | .reference target m, h => by
      rw [ImpartialToken] at h
      rw [enumerateToken, expandToken]
      cases habsent : m.isAbsent with
      | true => exact congrArg Except.ok (distinct_singleton _).symm
      | false =>
          obtain ⟨htarget, hcasing⟩ := h habsent
          rw [hanswer _ _ htarget]
          cases hexpand : answer scope.owner ⟨target, m⟩ with
          | error e => rfl
          | ok base =>
              show Except.ok (m.spread (distinct base)) = Except.ok (distinct (m.expand base))
              rw [Modifiers.spread_distinct (hcasing base hexpand)]

theorem enumerateRules_eq
    (hanswer : ∀ owner r, impartial owner r → answer' owner r = distinct <$> answer owner r)
    (finish : Rule → Example → Example) (hfinish : ∀ r e, (finish r e).key = e.key) :
    ∀ rules : List Rule, ImpartialRules answer scope impartial rules →
      distinct <$> enumerateRules answer' scope finish rules =
        distinct <$> expandRules answer scope finish rules
  | [], _ => by
      rw [enumerateRules, expandRules]
  | .mk tokens weight value :: rest, h => by
      rw [ImpartialRules] at h
      have hrest := enumerateRules_eq hanswer finish hfinish rest h.2
      rw [enumerateRules, expandRules]
      cases hreach : (Rule.mk tokens weight value).isReachable with
      | false => simpa using hrest
      | true =>
          have htokens := enumerateTokens_eq hanswer tokens [.empty] (h.1 hreach)
          rw [distinct_singleton] at htokens
          simp only [if_true]
          rw [htokens]
          cases expandTokens answer scope [.empty] tokens with
          | error e => rfl
          | ok here =>
              rcases map_eq_map_cases hrest with
                ⟨e, henum, hexpand⟩ | ⟨es, all, henum, hexpand, heq⟩
              · rw [henum, hexpand]
                rfl
              · rw [henum, hexpand]
                have hhere : distinct ((distinct here).map (finish (.mk tokens weight value))) =
                    distinct (here.map (finish (.mk tokens weight value))) :=
                  distinct_map_distinct fun a _ b _ hkey => by rw [hfinish, hfinish, hkey]
                exact congrArg Except.ok (distinct_append_congr hhere heq)

end

end

namespace Definition

theorem enumerate_eq {answer answer' : String → Reference → Sentences}
    {impartial : String → Reference → Prop}
    (hanswer : ∀ owner r, impartial owner r → answer' owner r = distinct <$> answer owner r)
    {d : Definition} {variation : Option String} {arguments : List Text}
    (h : d.Impartial answer impartial variation arguments) :
    d.enumerate answer' variation arguments =
      distinct <$> d.expand answer variation arguments := by
  unfold enumerate expand
  cases hselect : d.select variation with
  | error e => rfl
  | ok rules => exact enumerateRules_eq hanswer d.finish d.key_finish rules (h rules hselect)

end Definition

/--
**Early dropping loses nothing** behind references whose casings are impartial: the
enumeration lists every way to make a sentence, less the repeats.
-/
theorem enumerateIn_eq (definitions : List Definition) (owner : String) (r : Reference)
    (h : impartialIn definitions owner r) :
    enumerateIn definitions owner r = distinct <$> expandIn definitions owner r := by
  induction definitions generalizing owner r with
  | nil => rfl
  | cons d below ih =>
      rw [impartialIn] at h
      rw [enumerateIn, expandIn]
      split
      · rename_i hkey
        rw [if_pos hkey] at h
        exact Definition.enumerate_eq ih h
      · rename_i hkey
        rw [if_neg hkey] at h
        exact ih owner r h

end Phrasebook
