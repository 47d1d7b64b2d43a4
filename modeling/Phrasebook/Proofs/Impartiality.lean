import Phrasebook.Proofs.Expansion
import Phrasebook.Proofs.Template

/-!
Which templates have impartial casings.

A casing can tell same sentences apart only if one of them begins with a blank.  The text of
a word does not, for its blanks are taken off before its parameters are replaced; so a blank
in front comes from an argument, either from one that begins with it, or from one that is
empty and leaves the blank behind the parameter at the front.  Where only *solid* arguments
are passed, every text is firm, and every casing is impartial.
-/

namespace Phrasebook

/-! ### Words -/

namespace Text

/-- The text is not empty and does not begin with a blank. -/
def IsSolid (t : Text) : Prop := t ≠ [] ∧ t.IsFirm

@[simp] theorem isSolid_cons {c : Char} {t : Text} : IsSolid (c :: t) ↔ isBlank c = false := by
  simp [IsSolid]

instance : ∀ t : Text, Decidable t.IsSolid
  | [] => isFalse fun h => h.1 rfl
  | c :: _ => decidable_of_iff (isBlank c = false) isSolid_cons.symm

theorem isFirm_replace {t piece replacement : Text} (ht : t.IsFirm)
    (hr : replacement.IsSolid) : (t.replace piece replacement).IsFirm := by
  cases t with
  | nil => exact isFirm_nil
  | cons c rest =>
      rw [replace, replaceAfter]
      split
      · exact hr.2.append hr.1 _
      · simpa using ht

end Text

namespace Scope

/-- Every text that is bound to a name is solid. -/
def IsSolid (s : Scope) : Prop := ∀ binding ∈ s.bindings, binding.2.IsSolid

theorem isFirm_render {s : Scope} (hs : s.IsSolid) (word : Text) : (s.render word).IsFirm := by
  have hfold : ∀ (bindings : List (Text × Text)), (∀ b ∈ bindings, b.2.IsSolid) →
      ∀ t : Text, t.IsFirm →
        (bindings.foldl (fun t b => t.replace (placeholder b.1) b.2) t).IsFirm := by
    intro bindings
    induction bindings with
    | nil => intro _ t ht; exact ht
    | cons b rest ih =>
        intro hall t ht
        exact ih (fun b' hb' => hall b' (by simp [hb'])) _
          (Text.isFirm_replace ht (hall b (by simp)))
  exact hfold s.bindings hs _ (Text.isFirm_trim word)

theorem isSolid_ofDefinition {d : Definition} {arguments : List Text}
    (h : ∀ a ∈ arguments, a.IsSolid) : (ofDefinition d arguments).IsSolid := by
  intro binding hb
  have hzip : binding ∈ d.parameters.zip arguments := List.mem_mergeSort.mp hb
  exact h _ (List.of_mem_zip hzip).2

end Scope

/-- Every argument of the reference is solid. -/
def Reference.IsSolid (r : Reference) : Prop := ∀ a ∈ r.modifiers.arguments, a.IsSolid

instance (r : Reference) : Decidable r.IsSolid :=
  inferInstanceAs (Decidable (∀ a ∈ r.modifiers.arguments, a.IsSolid))

/-! ### Firm sentences -/

/-- Each of the examples has a firm text. -/
def AllFirm (es : List Example) : Prop := ∀ e ∈ es, e.text.IsFirm

theorem allFirm_empty : AllFirm [.empty] := by
  intro e he
  obtain rfl : e = .empty := by simpa using he
  exact Text.isFirm_nil

namespace Modifiers

theorem allFirm_expand {m : Modifiers} {base : List Example} (h : AllFirm base) :
    AllFirm (m.expand base) := by
  have hcased : AllFirm (base.flatMap fun e => m.casing.resolved.map fun c => e.recase c) := by
    intro e he
    obtain ⟨a, ha, hmem⟩ := List.mem_flatMap.mp he
    obtain ⟨c, -, rfl⟩ := List.mem_map.mp hmem
    exact Example.isFirm_recase c (h a ha)
  unfold expand
  split
  · intro e he
    rcases List.mem_append.mp he with he | he
    · exact hcased e he
    · exact allFirm_empty e he
  · exact hcased

/-- A token makes firm sentences if what it holds are firm sentences. -/
theorem allFirm_token (m : Modifiers) (base : Sentences) {es : List Example}
    (hbase : ∀ all, base = .ok all → AllFirm all)
    (h : (if m.isAbsent then .ok [.empty] else base >>= fun all => .ok (m.expand all)) = .ok es) :
    AllFirm es := by
  by_cases habsent : m.isAbsent = true
  · rw [if_pos habsent] at h
    obtain rfl : [Example.empty] = es := by injection h
    exact allFirm_empty
  · rw [if_neg habsent] at h
    obtain ⟨all, hall, h⟩ := bind_eq_ok.mp h
    obtain rfl : m.expand all = es := by injection h
    exact allFirm_expand (hbase all hall)

theorem impartial_of_allFirm {m : Modifiers} {base : List Example} (h : AllFirm base) :
    m.Impartial base :=
  fun c _ a ha b hb hkey => Example.key_recase_congr c (h a ha) (h b hb) hkey

end Modifiers

section

variable {answer : String → Reference → Sentences} {scope : Scope}

mutual

theorem allFirm_expandTokens (hscope : scope.IsSolid)
    (hanswer : ∀ owner r, r.IsSolid → ∀ es, answer owner r = .ok es → AllFirm es) :
    ∀ (tokens : List Token) (fronts es : List Example),
      (∀ r ∈ referencesOfTokens tokens, r.IsSolid) → AllFirm fronts →
      expandTokens answer scope fronts tokens = .ok es → AllFirm es
  | [] => by
      intro fronts es _ hfronts h
      rw [expandTokens] at h
      obtain rfl : fronts = es := by injection h
      exact hfronts
  | token :: rest => by
      intro fronts es hrefs hfronts h
      rw [referencesOfTokens] at hrefs
      rw [expandTokens] at h
      obtain ⟨backs, hbacks, h⟩ := bind_eq_ok.mp h
      have hb := allFirm_expandToken hscope hanswer token backs
        (fun r hr => hrefs r (List.mem_append_left _ hr)) hbacks
      refine allFirm_expandTokens hscope hanswer rest _ es
        (fun r hr => hrefs r (List.mem_append_right _ hr)) ?_ h
      intro e he
      obtain ⟨front, hfront, hmem⟩ := List.mem_flatMap.mp he
      obtain ⟨back, hback, rfl⟩ := List.mem_map.mp hmem
      exact Example.isFirm_append (hfronts front hfront) (hb back hback)

theorem allFirm_expandToken (hscope : scope.IsSolid)
    (hanswer : ∀ owner r, r.IsSolid → ∀ es, answer owner r = .ok es → AllFirm es) :
    ∀ (token : Token) (es : List Example), (∀ r ∈ referencesOfToken token, r.IsSolid) →
      expandToken answer scope token = .ok es → AllFirm es
  | .word text m => by
      intro es _ h
      rw [expandToken] at h
      refine m.allFirm_token (.ok [.ofText (scope.render text)]) (fun all hall e he => ?_) h
      obtain rfl := Except.ok.inj hall
      obtain rfl : e = .ofText (scope.render text) := by simpa using he
      exact Scope.isFirm_render hscope text
  | .group rules m => by
      intro es hrefs h
      rw [referencesOfToken] at hrefs
      rw [expandToken] at h
      exact m.allFirm_token _ (fun base hbase =>
        allFirm_expandRules hscope hanswer (fun _ _ => rfl) rules base hrefs hbase) h
  | .reference target m => by
      intro es hrefs h
      rw [referencesOfToken] at hrefs
      rw [expandToken] at h
      exact m.allFirm_token _ (fun base hbase => hanswer _ _ (hrefs _ (by simp)) base hbase) h

theorem allFirm_expandRules (hscope : scope.IsSolid)
    (hanswer : ∀ owner r, r.IsSolid → ∀ es, answer owner r = .ok es → AllFirm es)
    {finish : Rule → Example → Example} (hfinish : ∀ r e, (finish r e).text = e.text) :
    ∀ (rules : List Rule) (es : List Example), (∀ r ∈ referencesOfRules rules, r.IsSolid) →
      expandRules answer scope finish rules = .ok es → AllFirm es
  | [] => by
      intro es _ h
      rw [expandRules] at h
      obtain rfl : [] = es := by injection h
      intro e he
      simp at he
  | .mk tokens weight value :: rest => by
      intro es hrefs h
      rw [referencesOfRules] at hrefs
      have hrest := fun es => allFirm_expandRules hscope hanswer hfinish rest es
        fun r hr => hrefs r (List.mem_append_right _ hr)
      rcases of_expandRules_cons h with ⟨-, here, later, hhere, hlater, rfl⟩ | ⟨-, h⟩
      · have hfirm := allFirm_expandTokens hscope hanswer tokens [.empty] here
          (fun r hr => hrefs r (List.mem_append_left _ hr)) allFirm_empty hhere
        intro e he
        rcases List.mem_append.mp he with he | he
        · obtain ⟨a, ha, rfl⟩ := List.mem_map.mp he
          rw [hfinish]
          exact hfirm a ha
        · exact hrest later hlater e he
      · exact hrest es h

end

/-! ### Impartial casings -/

variable {impartial : String → Reference → Prop}

mutual

theorem impartialTokens_of_solid (hscope : scope.IsSolid)
    (hanswer : ∀ owner r, r.IsSolid → ∀ es, answer owner r = .ok es → AllFirm es)
    (himpartial : ∀ owner r, r.IsSolid → impartial owner r) :
    ∀ tokens : List Token, (∀ r ∈ referencesOfTokens tokens, r.IsSolid) →
      ImpartialTokens answer scope impartial tokens
  | [] => by
      intro _
      rw [ImpartialTokens]
      trivial
  | token :: rest => by
      intro hrefs
      rw [referencesOfTokens] at hrefs
      rw [ImpartialTokens]
      exact ⟨impartialToken_of_solid hscope hanswer himpartial token
          fun r hr => hrefs r (List.mem_append_left _ hr),
        impartialTokens_of_solid hscope hanswer himpartial rest
          fun r hr => hrefs r (List.mem_append_right _ hr)⟩

theorem impartialToken_of_solid (hscope : scope.IsSolid)
    (hanswer : ∀ owner r, r.IsSolid → ∀ es, answer owner r = .ok es → AllFirm es)
    (himpartial : ∀ owner r, r.IsSolid → impartial owner r) :
    ∀ token : Token, (∀ r ∈ referencesOfToken token, r.IsSolid) →
      ImpartialToken answer scope impartial token
  | .word text m => by
      intro _
      rw [ImpartialToken]
      trivial
  | .group rules m => by
      intro hrefs
      rw [referencesOfToken] at hrefs
      rw [ImpartialToken]
      intro _
      refine ⟨impartialRules_of_solid hscope hanswer himpartial rules hrefs, fun base hbase => ?_⟩
      exact Modifiers.impartial_of_allFirm
        (allFirm_expandRules hscope hanswer (fun _ _ => rfl) rules base hrefs hbase)
  | .reference target m => by
      intro hrefs
      rw [referencesOfToken] at hrefs
      have hsolid : Reference.IsSolid ⟨target, m⟩ := hrefs _ (by simp)
      rw [ImpartialToken]
      intro _
      exact ⟨himpartial _ _ hsolid,
        fun base hbase => Modifiers.impartial_of_allFirm (hanswer _ _ hsolid base hbase)⟩

theorem impartialRules_of_solid (hscope : scope.IsSolid)
    (hanswer : ∀ owner r, r.IsSolid → ∀ es, answer owner r = .ok es → AllFirm es)
    (himpartial : ∀ owner r, r.IsSolid → impartial owner r) :
    ∀ rules : List Rule, (∀ r ∈ referencesOfRules rules, r.IsSolid) →
      ImpartialRules answer scope impartial rules
  | [] => by
      intro _
      rw [ImpartialRules]
      trivial
  | .mk tokens weight value :: rest => by
      intro hrefs
      rw [referencesOfRules] at hrefs
      rw [ImpartialRules]
      exact ⟨fun _ => impartialTokens_of_solid hscope hanswer himpartial tokens
          fun r hr => hrefs r (List.mem_append_left _ hr),
        impartialRules_of_solid hscope hanswer himpartial rest
          fun r hr => hrefs r (List.mem_append_right _ hr)⟩

end

end

theorem allFirm_expandIn {definitions : List Definition}
    (hdefs : ∀ d ∈ definitions, ∀ r ∈ d.references, r.IsSolid) (owner : String) (r : Reference)
    (hr : r.IsSolid) (es : List Example) (h : expandIn definitions owner r = .ok es) :
    AllFirm es := by
  induction definitions generalizing owner r es with
  | nil => injection h
  | cons d below ih =>
      have hbelow := ih fun d' hd' => hdefs d' (by simp [hd'])
      rw [expandIn] at h
      by_cases hkey : d.key = r.target
      · rw [if_pos hkey] at h
        obtain ⟨rules, hselect, h⟩ := bind_eq_ok.mp h
        exact allFirm_expandRules (Scope.isSolid_ofDefinition hr) hbelow d.text_finish rules es
          (fun r' hr' => hdefs d (by simp) r' (Definition.references_of_select hselect r' hr')) h
      · rw [if_neg hkey] at h
        exact hbelow owner r hr es h

/-- **Where only solid arguments are passed, casings are impartial.** -/
theorem impartialIn_of_solid {definitions : List Definition}
    (hdefs : ∀ d ∈ definitions, ∀ r ∈ d.references, r.IsSolid) (owner : String) (r : Reference)
    (hr : r.IsSolid) : impartialIn definitions owner r := by
  induction definitions generalizing owner r with
  | nil => trivial
  | cons d below ih =>
      have hmem : ∀ d' ∈ below, ∀ r ∈ d'.references, r.IsSolid :=
        fun d' hd' => hdefs d' (by simp [hd'])
      rw [impartialIn]
      split
      · intro rules hselect
        exact impartialRules_of_solid (Scope.isSolid_ofDefinition hr) (allFirm_expandIn hmem)
          (ih hmem) rules
          fun r' hr' => hdefs d (by simp) r' (Definition.references_of_select hselect r' hr')
      · exact ih hmem owner r hr

end Phrasebook
