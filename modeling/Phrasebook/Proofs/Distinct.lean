import Phrasebook.Generation.Enumeration
import Phrasebook.Proofs.Example

/-!
Examples without repeats, as an algebra.

`distinct` keeps the first example of every key, and everything about it follows from what
it does to a first example: that one stays, and of the rest those with another key
(`distinct_cons`).  The set of seen keys that makes it fast appears in the one induction
that proves this, and nowhere else.

What the enumeration needs is that `distinct` may be dropped inside another `distinct`:
repeats that an inner one removes would be removed by the outer one as well, as long as
what is done to the examples in between makes same sentences of same sentences.
-/

namespace Phrasebook

/-! ### What is kept -/

/-- One step of the walk, once its rest is known. -/
private theorem distinct_cons_of {xs : List Example}
    (hxs : ∀ (seen : Seen) (kept : List Example), keepUnseen seen kept xs =
      kept.reverse ++ (distinct xs).filter fun e => !seen.contains e.key) (x : Example) :
    distinct (x :: xs) = x :: (distinct xs).filter fun e => e.key ≠ x.key := by
  rw [distinct, keepUnseen, if_neg (by simp), hxs]
  refine congrArg (x :: ·) (List.filter_congr fun e _ => ?_)
  by_cases he : e.key = x.key
  · simp [he]
  · simp [he, Ne.symm he]

/-- The unseen examples are those that are first of their key, and unseen. -/
theorem keepUnseen_eq (xs : List Example) :
    ∀ (seen : Seen) (kept : List Example),
      keepUnseen seen kept xs =
        kept.reverse ++ (distinct xs).filter fun e => !seen.contains e.key := by
  induction xs with
  | nil => intro seen kept; simp [distinct, keepUnseen]
  | cons x xs ih =>
      intro seen kept
      rw [distinct_cons_of ih, keepUnseen]
      by_cases hseen : seen.contains x.key = true
      · rw [if_pos hseen, ih, List.filter_cons, if_neg (by simp [hseen]), List.filter_filter]
        congr 1
        refine List.filter_congr fun e _ => ?_
        -- An example with the key of `x` is seen, so it is dropped either way.
        by_cases he : e.key = x.key
        · simp [he, hseen]
        · simp [he]
      · rw [if_neg hseen, ih, List.filter_cons, if_pos (by simp [hseen]), List.filter_filter]
        simp only [List.reverse_cons, List.append_assoc, List.singleton_append]
        congr 2
        refine List.filter_congr fun e _ => ?_
        rw [Std.HashSet.contains_insert]
        by_cases he : e.key = x.key
        · simp [he]
        · simp [he, Ne.symm he]

@[simp] theorem distinct_nil : distinct [] = [] := rfl

/-- **The first example stays, and of the rest those with another key.** -/
theorem distinct_cons (x : Example) (xs : List Example) :
    distinct (x :: xs) = x :: (distinct xs).filter fun e => e.key ≠ x.key :=
  distinct_cons_of (keepUnseen_eq xs) x

theorem distinct_sublist (xs : List Example) : (distinct xs).Sublist xs := by
  induction xs with
  | nil => exact List.Sublist.slnil
  | cons x xs ih =>
      rw [distinct_cons]
      exact (List.filter_sublist.trans ih).cons_cons x

theorem mem_of_mem_distinct {xs : List Example} {e : Example} (h : e ∈ distinct xs) : e ∈ xs :=
  (distinct_sublist xs).subset h

theorem length_distinct_le (xs : List Example) : (distinct xs).length ≤ xs.length :=
  (distinct_sublist xs).length_le

/-- No key is kept twice. -/
theorem nodup_key_distinct (xs : List Example) : ((distinct xs).map Example.key).Nodup := by
  induction xs with
  | nil => simp
  | cons x xs ih =>
      rw [distinct_cons, List.map_cons, List.nodup_cons]
      refine ⟨?_, (List.filter_sublist.map Example.key).nodup ih⟩
      intro hmem
      obtain ⟨e, he, hkey⟩ := List.mem_map.mp hmem
      simpa [hkey] using (List.mem_filter.mp he).2

/-- No key is lost. -/
theorem exists_mem_distinct {xs : List Example} {e : Example} (h : e ∈ xs) :
    ∃ e' ∈ distinct xs, e'.key = e.key := by
  induction xs with
  | nil => simp at h
  | cons x xs ih =>
      rw [distinct_cons]
      by_cases hkey : e.key = x.key
      · exact ⟨x, by simp, hkey.symm⟩
      · rcases List.mem_cons.mp h with rfl | h
        · exact absurd rfl hkey
        · obtain ⟨e', he', hsame⟩ := ih h
          refine ⟨e', ?_, hsame⟩
          simp [he', hsame, hkey]

theorem mem_key_distinct {xs : List Example} {k : Text} :
    k ∈ (distinct xs).map Example.key ↔ k ∈ xs.map Example.key := by
  constructor
  · exact fun h => ((distinct_sublist xs).map Example.key).subset h
  · intro h
    obtain ⟨e, he, rfl⟩ := List.mem_map.mp h
    obtain ⟨e', he', hkey⟩ := exists_mem_distinct he
    exact List.mem_map.mpr ⟨e', he', hkey⟩

/-- How many are left depends on the keys alone. -/
theorem length_distinct_congr {xs ys : List Example} (h : xs.map Example.key = ys.map Example.key) :
    (distinct xs).length = (distinct ys).length := by
  have hperm : ((distinct xs).map Example.key).Perm ((distinct ys).map Example.key) := by
    rw [List.perm_ext_iff_of_nodup (nodup_key_distinct xs) (nodup_key_distinct ys)]
    intro k
    rw [mem_key_distinct, mem_key_distinct, h]
  simpa using hperm.length_eq

/-- A list in which no key is repeated stays as it is. -/
theorem distinct_of_nodup {xs : List Example} (h : (xs.map Example.key).Nodup) :
    distinct xs = xs := by
  induction xs with
  | nil => rfl
  | cons x xs ih =>
      obtain ⟨hx, hxs⟩ := List.nodup_cons.mp h
      rw [distinct_cons, ih hxs, List.filter_eq_self.mpr]
      intro e he
      have : e.key ≠ x.key := fun hkey => hx (List.mem_map.mpr ⟨e, he, hkey⟩)
      simpa using this

/-- Nothing is dropped just if there are no repeats. -/
theorem length_distinct_eq_iff {xs : List Example} :
    (distinct xs).length = xs.length ↔ (xs.map Example.key).Nodup := by
  constructor
  · intro h
    rw [← (distinct_sublist xs).eq_of_length h]
    exact nodup_key_distinct xs
  · intro h
    rw [distinct_of_nodup h]

@[simp] theorem distinct_singleton (e : Example) : distinct [e] = [e] :=
  distinct_of_nodup (by simp)

@[simp] theorem distinct_distinct (xs : List Example) : distinct (distinct xs) = distinct xs :=
  distinct_of_nodup (nodup_key_distinct xs)

/-! ### How it goes with other operations -/

/-- Picking by key and dropping repeats may change places. -/
theorem filter_distinct (p : Text → Bool) (xs : List Example) :
    (distinct xs).filter (fun e => p e.key) = distinct (xs.filter fun e => p e.key) := by
  induction xs with
  | nil => rfl
  | cons x xs ih =>
      rw [distinct_cons]
      by_cases hx : p x.key = true
      · rw [List.filter_cons, if_pos hx, List.filter_cons, if_pos hx, distinct_cons, ← ih,
          List.filter_filter, List.filter_filter]
        simp only [Bool.and_comm]
      · rw [List.filter_cons, if_neg hx, List.filter_cons, if_neg hx, ← ih, List.filter_filter]
        refine List.filter_congr fun e _ => ?_
        by_cases he : e.key = x.key
        · simp [he, hx]
        · simp [he]

/-- **Repeats are dropped behind the first example of their key.**  The walk with its set of
keys does what dropping pairwise does. -/
theorem distinct_eq_eraseDupsBy (xs : List Example) :
    distinct xs = xs.eraseDupsBy fun a b => a.key == b.key := by
  induction hn : xs.length using Nat.strongRecOn generalizing xs with
  | _ n ih =>
      cases xs with
      | nil => rfl
      | cons x xs =>
          have hshorter : (xs.filter fun e => e.key ≠ x.key).length < n := by
            have hle := List.length_filter_le (fun e => decide (e.key ≠ x.key)) xs
            rw [← hn, List.length_cons]
            omega
          have hrest := ih _ hshorter (xs.filter fun e => e.key ≠ x.key) rfl
          rw [distinct_cons, filter_distinct (fun k => decide (k ≠ x.key)), hrest,
            List.eraseDupsBy_cons]
          simp

theorem distinct_append (xs ys : List Example) :
    distinct (xs ++ ys) =
      distinct xs ++ (distinct ys).filter fun e => e.key ∉ xs.map Example.key := by
  induction xs with
  | nil => simp
  | cons x xs ih =>
      rw [List.cons_append, distinct_cons, ih, distinct_cons, List.filter_append,
        List.cons_append, List.filter_filter]
      congr 2
      refine List.filter_congr fun e _ => ?_
      by_cases he : e.key = x.key <;> simp [he]

/-- Repeats in the parts do not matter. -/
theorem distinct_append_congr {xs xs' ys ys' : List Example} (hx : distinct xs = distinct xs')
    (hy : distinct ys = distinct ys') : distinct (xs ++ ys) = distinct (xs' ++ ys') := by
  rw [distinct_append, distinct_append, hx, hy]
  congr 1
  refine List.filter_congr fun e _ => ?_
  have hkeys : e.key ∈ xs.map Example.key ↔ e.key ∈ xs'.map Example.key := by
    rw [← mem_key_distinct, hx, mem_key_distinct]
  simp only [hkeys]

theorem distinct_flatMap_congr {xs : List Example} {f g : Example → List Example}
    (h : ∀ a ∈ xs, distinct (f a) = distinct (g a)) :
    distinct (xs.flatMap f) = distinct (xs.flatMap g) := by
  induction xs with
  | nil => rfl
  | cons x xs ih =>
      rw [List.flatMap_cons, List.flatMap_cons]
      exact distinct_append_congr (h x (by simp)) (ih fun a ha => h a (by simp [ha]))

/-- Examples all of whose images are dropped anyway may be dropped before. -/
theorem filter_flatMap_filter {xs : List Example} {f : Example → List Example}
    {p q : Example → Bool} (h : ∀ a ∈ xs, p a = false → ∀ e ∈ f a, q e = false) :
    ((xs.filter p).flatMap f).filter q = (xs.flatMap f).filter q := by
  induction xs with
  | nil => rfl
  | cons x xs ih =>
      have hrest := ih fun a ha => h a (by simp [ha])
      by_cases hx : p x = true
      · rw [List.filter_cons, if_pos hx, List.flatMap_cons, List.flatMap_cons,
          List.filter_append, List.filter_append, hrest]
      · have hnone : (f x).filter q = [] := by
          rw [List.filter_eq_nil_iff]
          intro e he
          simp [h x (by simp) (by simpa using hx) e he]
        rw [List.filter_cons, if_neg hx, List.flatMap_cons, List.filter_append, hnone,
          List.nil_append, hrest]

/--
**An inner `distinct` may be dropped.**  Whatever is made of each example, as long as same
sentences are made of same sentences, removing repeats before changes nothing about what is
left after removing them behind.
-/
theorem distinct_flatMap_distinct {xs : List Example} {f : Example → List Example}
    (h : ∀ a ∈ xs, ∀ b ∈ xs, a.key = b.key → (f a).map Example.key = (f b).map Example.key) :
    distinct ((distinct xs).flatMap f) = distinct (xs.flatMap f) := by
  induction xs with
  | nil => rfl
  | cons x xs ih =>
      have hrest := ih fun a ha b hb => h a (by simp [ha]) b (by simp [hb])
      rw [distinct_cons, List.flatMap_cons, List.flatMap_cons, distinct_append, distinct_append,
        ← hrest]
      congr 1
      have hfilter := fun ys => filter_distinct (fun k => decide (k ∉ (f x).map Example.key)) ys
      rw [hfilter, hfilter]
      congr 1
      -- What an example with the key of `x` becomes is among what `x` becomes.
      refine filter_flatMap_filter fun a ha hkey e he => ?_
      have hxa : (f a).map Example.key = (f x).map Example.key :=
        h a (by simp [mem_of_mem_distinct ha]) x (by simp) (by simpa using hkey)
      have hmem : e.key ∈ (f x).map Example.key := by
        rw [← hxa]
        exact List.mem_map.mpr ⟨e, he, rfl⟩
      simpa using hmem

theorem distinct_map_distinct {xs : List Example} {f : Example → Example}
    (h : ∀ a ∈ xs, ∀ b ∈ xs, a.key = b.key → (f a).key = (f b).key) :
    distinct ((distinct xs).map f) = distinct (xs.map f) := by
  rw [List.map_eq_flatMap, List.map_eq_flatMap]
  refine distinct_flatMap_distinct fun a ha b hb hkey => ?_
  simp [h a ha b hb hkey]

/-! ### Side by side -/

theorem sideBySide_distinct (fronts backs : List Example) :
    sideBySide (distinct fronts) (distinct backs) =
      distinct (fronts.flatMap fun front => backs.map front.append) := by
  unfold sideBySide
  rw [distinct_flatMap_distinct]
  · refine distinct_flatMap_congr fun front _ => ?_
    exact distinct_map_distinct fun a _ b _ hkey => Example.key_append_congr rfl hkey
  · intro a _ b _ hkey
    simp only [List.map_map]
    refine List.map_congr_left fun back _ => ?_
    exact Example.key_append_congr hkey rfl

@[simp] theorem sideBySide_singleton (a b : Example) : sideBySide [a] [b] = [a.append b] := by
  simp [sideBySide]

theorem length_sideBySide_le (fronts backs : List Example) :
    (sideBySide fronts backs).length ≤ fronts.length * backs.length := by
  refine Nat.le_trans (length_distinct_le _) ?_
  simp [List.length_flatMap, List.map_const']

end Phrasebook
