import Mathlib.Data.List.Nodup
import PackedLogic.Proofs.RecordReading
set_option autoImplicit false

/-!
# Settings in a record

What is written in an object is said without regard to a reader: each of its settings stands in it at
most once, in any place, and is left out only where its value is the default; all other members are
values of any kind (`RecordText`).  A record whose fields take their settings into the state takes in
all of them (`reads_record`).  The order of the members does not matter, since the settings change
different parts of the state, and what is left out is there already, since the state begins with the
defaults.
-/

namespace PackedLogic.Json

/-- A part of a record that can be set. -/
structure Setting where
  key : String
  /-- How its value is written. -/
  Writes : List Char → Prop
  /-- Its value is the default. -/
  IsDefault : Prop

/-- The setting stands among the members at most once, and is left out only where its value is the
default. -/
structure Setting.StandsIn (x : Setting) (ms : List (String × List Char)) : Prop where
  once : (ms.map Prod.fst).count x.key ≤ 1
  written : ∀ v, (x.key, v) ∈ ms → x.Writes v
  omitted : x.key ∉ ms.map Prod.fst → x.IsDefault

/-- An object in which the settings stand, in any order, among other members of any kind. -/
def RecordText (settings : List Setting) (v : List Char) : Prop :=
  ∃ ms, ObjectText ms v ∧ (∀ x ∈ settings, x.StandsIn ms) ∧
    ∀ m ∈ ms, m.1 ∉ settings.map Setting.key → ValueText m.2

/-- A setting with the reader of its value, which takes it into the state, if the state has the
default where the value is the default. -/
structure Entry (σ : Type) extends Setting where
  read : Reader σ
  set : σ → σ
  reads : ∀ v state, Writes v → (IsDefault → set state = state) → Reads read v state (set state)

/-- The fields of a record with these entries. -/
def Entry.fields {σ : Type} (xs : List (Entry σ)) : Fields σ := xs.map fun x => (x.key, x.read)

/-! ## One setting among the members -/

namespace Setting.StandsIn

variable {x : Setting} {m : String × List Char} {ms : List (String × List Char)}

/-- A setting that stands in front is written there, and does not come again. -/
theorem head {v : List Char} (h : x.StandsIn ((x.key, v) :: ms)) :
    x.Writes v ∧ x.key ∉ ms.map Prod.fst := by
  refine ⟨h.written v List.mem_cons_self, List.count_eq_zero.1 ?_⟩
  have honce := h.once
  rw [List.map_cons, List.count_cons_self] at honce
  omega

theorem tail (h : x.StandsIn (m :: ms)) (hne : m.1 ≠ x.key) : x.StandsIn ms where
  once := by
    have honce := h.once
    rwa [List.map_cons, List.count_cons_of_ne hne] at honce
  written v hv := h.written v (List.mem_cons_of_mem m hv)
  omitted hx := h.omitted (by simpa [hne.symm] using hx)

end Setting.StandsIn

/-! ## All settings of a record -/

namespace Entry

variable {σ : Type} {xs ys : List (Entry σ)} {x : Entry σ} {state : σ} {seen : List String}
variable {ms : List (String × List Char)} {v : List Char}

/-- No key stands for two entries. -/
def Distinct (xs : List (Entry σ)) : Prop := (xs.map fun x => x.key).Nodup

/-- It does not matter in which order the entries are set. -/
def Commute (xs : List (Entry σ)) : Prop :=
  ∀ x ∈ xs, ∀ y ∈ xs, ∀ state, y.set (x.set state) = x.set (y.set state)

theorem distinct_middle {xs₁ xs₂ : List (Entry σ)} (h : Distinct (xs₁ ++ x :: xs₂)) :
    x.key ∉ (xs₁ ++ xs₂).map (fun x => x.key) ∧ Distinct (xs₁ ++ xs₂) := by
  unfold Distinct at h ⊢
  rwa [List.map_append, List.map_cons, List.nodup_middle, ← List.map_append, List.nodup_cons] at h

theorem lookup_fields (hxs : Distinct xs) (hx : x ∈ xs) :
    (fields xs).lookup x.key = some x.read := by
  obtain ⟨xs₁, xs₂, rfl⟩ := List.append_of_mem hx
  refine List.lookup_eq_some_iff.2
    ⟨fields xs₁, fields xs₂, by simp [fields], fun p hp => bne_iff_ne.2 fun heq => ?_⟩
  obtain ⟨y, hy, rfl⟩ := List.mem_map.1 hp
  exact (distinct_middle hxs).1 (heq ▸ List.mem_map_of_mem (List.mem_append_left xs₂ hy))

theorem lookup_fields_eq_none {key : String} (h : key ∉ xs.map fun x => x.key) :
    (fields xs).lookup key = none := by
  refine List.lookup_eq_none_iff.2 fun p hp => bne_iff_ne.2 fun heq => ?_
  obtain ⟨x, hx, rfl⟩ := List.mem_map.1 hp
  exact h (heq ▸ List.mem_map_of_mem hx)

theorem foldr_set_of_default (h : ∀ x ∈ xs, x.set state = state) :
    xs.foldr set state = state := by
  induction xs with
  | nil => rfl
  | cons x xs ih =>
    rw [List.foldr_cons, ih fun y hy => h y (List.mem_cons_of_mem x hy), h x List.mem_cons_self]

/-- An entry may be set before all others. -/
theorem foldr_set_middle {xs₁ xs₂ : List (Entry σ)} (h : Commute (xs₁ ++ x :: xs₂)) (state : σ) :
    (xs₁ ++ x :: xs₂).foldr set state = (xs₁ ++ xs₂).foldr set (x.set state) := by
  have hperm : (xs₁ ++ x :: xs₂).Perm ((xs₁ ++ xs₂) ++ [x]) :=
    List.perm_middle.trans (List.perm_append_singleton x _).symm
  rw [hperm.foldr_eq' h state, List.foldr_append]
  rfl

/-- The entries `ys` that were not read yet are set by the members that are left. -/
theorem fills (hxs : Distinct xs) (hcomm : Commute xs) (hsub : ys ⊆ xs) (hys : Distinct ys)
    (hseen : ∀ key ∈ seen, key ∈ xs.map (fun x => x.key) ∧ key ∉ ys.map fun y => y.key)
    (hstands : ∀ y ∈ ys, y.StandsIn ms)
    (hother : ∀ m ∈ ms, m.1 ∉ ys.map (fun y => y.key) →
      m.1 ∉ xs.map (fun x => x.key) ∧ ValueText m.2)
    (hfresh : ∀ y ∈ ys, y.IsDefault → y.set state = state) :
    Fills (fields xs) seen state ms (ys.foldr set state) := by
  induction ms generalizing ys seen state with
  | nil =>
    rw [foldr_set_of_default fun y hy => hfresh y hy ((hstands y hy).omitted List.not_mem_nil)]
    exact .nil seen state
  | cons m ms ih =>
    obtain ⟨key, v⟩ := m
    by_cases hkey : key ∈ ys.map fun y => y.key
    · obtain ⟨y, hy, rfl⟩ := List.mem_map.1 hkey
      obtain ⟨hwrites, hgone⟩ := (hstands y hy).head
      obtain ⟨ys₁, ys₂, rfl⟩ := List.append_of_mem hy
      obtain ⟨hnotMem, hys⟩ := distinct_middle hys
      have hless : ys₁ ++ ys₂ ⊆ ys₁ ++ y :: ys₂ :=
        ((List.sublist_cons_self y ys₂).append_left ys₁).subset
      rw [foldr_set_middle fun a ha b hb => hcomm a (hsub ha) b (hsub hb)]
      refine .cons (fun h => (hseen _ h).2 hkey)
        (.known (lookup_fields hxs (hsub hy)) (y.reads v state hwrites (hfresh y hy)))
        (ih (fun z hz => hsub (hless hz)) hys ?seen ?stands ?other ?fresh)
      case seen =>
        rintro key (_ | ⟨_, hmem⟩)
        · exact ⟨List.mem_map_of_mem (hsub hy), hnotMem⟩
        · exact ⟨(hseen key hmem).1, fun h => (hseen key hmem).2 (List.map_subset _ hless h)⟩
      case stands =>
        intro z hz
        refine (hstands z (hless hz)).tail fun (heq : y.key = z.key) => hnotMem ?_
        exact heq ▸ List.mem_map_of_mem hz
      case other =>
        intro m hm hkeys
        refine hother m (List.mem_cons_of_mem _ hm) fun hmem => ?_
        obtain ⟨z, hz, hzm⟩ := List.mem_map.1 hmem
        rcases List.mem_append.1 hz with hz | hz
        · exact hkeys (hzm ▸ List.mem_map_of_mem (List.mem_append_left ys₂ hz))
        · rcases List.mem_cons.1 hz with rfl | hz
          · exact hgone (hzm ▸ List.mem_map_of_mem hm)
          · exact hkeys (hzm ▸ List.mem_map_of_mem (List.mem_append_right ys₁ hz))
      case fresh =>
        intro z hz hdefault
        rw [hcomm y (hsub hy) z (hsub (hless hz)), hfresh z (hless hz) hdefault]
    · obtain ⟨hunknown, hv⟩ := hother _ List.mem_cons_self hkey
      refine .cons (fun h => hunknown (hseen key h).1) (.unknown (lookup_fields_eq_none hunknown) hv) ?_
      refine ih hsub hys hseen (fun y hy => (hstands y hy).tail ?_)
        (fun m hm => hother m (List.mem_cons_of_mem _ hm)) hfresh
      rintro rfl
      exact hkey (List.mem_map_of_mem hy)

/-- A record takes in all settings that stand in it. -/
theorem reads_record (hxs : Distinct xs) (hcomm : Commute xs)
    (h : RecordText (xs.map Entry.toSetting) v)
    (hfresh : ∀ x ∈ xs, x.IsDefault → x.set state = state) :
    Reads (record (fields xs)) v state (xs.foldr set state) := by
  obtain ⟨ms, hobject, hstands, hother⟩ := h
  refine reads_object hobject (fills hxs hcomm (List.Subset.refl xs) hxs nofun ?_ ?_ hfresh)
  · exact fun x hx => hstands _ (List.mem_map_of_mem hx)
  · intro m hm hkey
    refine ⟨hkey, hother m hm ?_⟩
    simpa using hkey

end Entry

end PackedLogic.Json
