import HM4.General.KeyedList

/-!
# Keyed lists over each other

Of some lists with increasing keys the newest entry of each key is seen; among entries of one time
it is the one of the upper list. What is put into the uppermost list is put into what is seen, if
the lists below have nothing newer of its key.
-/

namespace HM4.Overlay

open KeyedList

variable {α K : Type*} [LinearOrder K] (key : α → K) (time : α → ℕ)

/-- The newer of an entry below and one above, which is kept if the times are equal. -/
def newest : Option α → Option α → Option α
  | none, above => above
  | some x, none => some x
  | some x, some y => if time y < time x then some x else some y

/-- An entry of a lower list is put where it is newer than what is there. -/
def lay (upper : List α) (x : α) : List α :=
  match lookup key (key x) upper with
  | none => put key x upper
  | some y => if time y < time x then put key x upper else upper

/-- What is seen of two lists. -/
def overlay (upper lower : List α) : List α := lower.foldl (lay key time) upper

/-- What is seen of a list over others, the uppermost first. -/
def overlays (upper : List α) (lowers : List (List α)) : List α :=
  lowers.foldl (overlay key time) upper

variable {key time}

/-! ## Lists with the same entries -/

/-- Lists with increasing keys are equal if they have the same entry for each key. -/
theorem eq_of_lookup_eq {l l' : List α} (hl : Increasing key l) (hl' : Increasing key l')
    (h : ∀ k, lookup key k l = lookup key k l') : l = l' := by
  have hsub : ∀ {m m' : List α}, Increasing key m → (∀ k, lookup key k m = lookup key k m') →
      ∀ x ∈ m, x ∈ m' := fun hm heq x hx =>
    mem_of_lookup ((heq _).symm.trans (hm.lookup_of_mem hx))
  have hnodup : ∀ {m : List α}, Increasing key m → m.Nodup := fun hm =>
    hm.imp fun hlt heq => absurd (congrArg key heq) hlt.ne
  have hperm : l.Perm l' := (List.perm_ext_iff_of_nodup (hnodup hl) (hnodup hl')).mpr fun x =>
    ⟨hsub hl h x, hsub hl' (fun k => (h k).symm) x⟩
  exact hperm.eq_of_pairwise (fun x y _ _ hxy hyx => absurd hyx hxy.asymm) hl hl'

theorem increasing_lay {upper : List α} (h : Increasing key upper) (x : α) :
    Increasing key (lay key time upper x) := by
  unfold lay
  split
  · exact h.put
  · split
    · exact h.put
    · exact h

theorem increasing_overlay {upper : List α} (h : Increasing key upper) (lower : List α) :
    Increasing key (overlay key time upper lower) :=
  List.foldlRecOn _ _ h fun _ hm x _ => increasing_lay hm x

theorem increasing_overlays {upper : List α} (h : Increasing key upper) (lowers : List (List α)) :
    Increasing key (overlays key time upper lowers) :=
  List.foldlRecOn _ _ h fun _ hm lower _ => increasing_overlay hm lower

/-! ## What is seen -/

theorem newest_none (below : Option α) : newest time below none = below := by
  cases below <;> rfl

theorem lookup_lay_self (upper : List α) (x : α) :
    lookup key (key x) (lay key time upper x) =
      newest time (some x) (lookup key (key x) upper) := by
  unfold lay
  split
  · next h => rw [h, lookup_put_self, newest]
  · next y h =>
    rw [h, newest]
    split
    · exact lookup_put_self key x upper
    · exact h

theorem lookup_lay_of_ne {upper : List α} {x : α} {k : K} (h : key x ≠ k) :
    lookup key k (lay key time upper x) = lookup key k upper := by
  unfold lay
  split
  · exact lookup_put_of_ne h upper
  · split
    · exact lookup_put_of_ne h upper
    · rfl

/-- The newest entry of a key is seen. -/
theorem lookup_overlay {upper lower : List α} (h : Increasing key lower) (k : K) :
    lookup key k (overlay key time upper lower) =
      newest time (lookup key k lower) (lookup key k upper) := by
  induction lower generalizing upper with
  | nil => rfl
  | cons x lower ih =>
    obtain ⟨hx, hlower⟩ := Increasing.cons_iff.mp h
    have hrest := @ih (lay key time upper x) hlower
    rw [overlay, List.foldl_cons, ← overlay, hrest]
    by_cases hk : key x = k
    · subst hk
      have hnone : lookup key (key x) lower = none := lookup_eq_none fun y hy => (hx y hy).ne'
      rw [hnone, lookup_lay_self, lookup, if_pos rfl, newest]
    · rw [lookup_lay_of_ne hk, lookup, if_neg hk]

/-- Over nothing a list is seen as it is. -/
theorem overlay_nil {lower : List α} (h : Increasing key lower) :
    overlay key time [] lower = lower := by
  refine eq_of_lookup_eq (increasing_overlay List.Pairwise.nil lower) h fun k => ?_
  rw [lookup_overlay h]
  exact newest_none _

/-! ## A put into the uppermost list -/

/-- An entry that is not older than those of its key below is seen. -/
theorem overlay_put {upper lower : List α} (hu : Increasing key upper) (hl : Increasing key lower)
    {x : α} (h : ∀ y ∈ lower, key y = key x → time y ≤ time x) :
    overlay key time (put key x upper) lower = put key x (overlay key time upper lower) := by
  refine eq_of_lookup_eq (increasing_overlay hu.put lower) (increasing_overlay hu lower).put
    fun k => ?_
  rw [lookup_overlay hl]
  by_cases hk : key x = k
  · subst hk
    rw [lookup_put_self, lookup_put_self]
    cases hget : lookup key (key x) lower with
    | none => rfl
    | some y => exact if_neg (not_lt.mpr (h y (mem_of_lookup hget) (lookup_key hget)))
  · rw [lookup_put_of_ne hk, lookup_put_of_ne hk, lookup_overlay hl]

@[inherit_doc overlay_put]
theorem overlays_put {upper : List α} {lowers : List (List α)} (hu : Increasing key upper)
    (hl : ∀ l ∈ lowers, Increasing key l) {x : α}
    (h : ∀ l ∈ lowers, ∀ y ∈ l, key y = key x → time y ≤ time x) :
    overlays key time (put key x upper) lowers = put key x (overlays key time upper lowers) := by
  induction lowers generalizing upper with
  | nil => rfl
  | cons l lowers ih =>
    have hput := overlay_put hu (hl l List.mem_cons_self) (h l List.mem_cons_self)
    have hrest := @ih (overlay key time upper l) (increasing_overlay hu l)
      (fun l' hl' => hl l' (List.mem_cons_of_mem l hl'))
      fun l' hl' => h l' (List.mem_cons_of_mem l hl')
    rw [overlays, List.foldl_cons, hput, ← overlays, hrest, overlays, overlays, List.foldl_cons]

end HM4.Overlay
