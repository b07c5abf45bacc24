import Turtle.Number.Magnitude
import Turtle.Failure

/-!
# Variables

Names bound to numbers, and a policy for names that are not. `lookup_insert` says what binding a name does to
every name, and `get` is what a program reads.
-/

namespace Turtle

/-- Names with their numbers, each name once, in the order of their first binding. -/
structure Bindings where
  entries : List (String × Number)
  nodup : (entries.map Prod.fst).Nodup

namespace Bindings

def empty : Bindings := ⟨[], List.nodup_nil⟩

def size (b : Bindings) : Nat := b.entries.length

def names (b : Bindings) : List String := b.entries.map Prod.fst

def lookup (b : Bindings) (name : String) : Option Number := b.entries.lookup name

/-- The entries with this name bound: in its place, or behind all others if it is new. -/
def set (name : String) (value : Number) : List (String × Number) → List (String × Number)
  | [] => [(name, value)]
  | e :: es => if e.1 = name then (name, value) :: es else e :: set name value es

theorem map_fst_set (name : String) (value : Number) (es : List (String × Number)) :
    (set name value es).map Prod.fst =
      if name ∈ es.map Prod.fst then es.map Prod.fst else es.map Prod.fst ++ [name] := by
  induction es with
  | nil => simp [set]
  | cons e es ih =>
    by_cases h : e.1 = name
    · simp [set, h]
    · simp only [set, h, if_false, List.map_cons, ih, List.mem_cons, Ne.symm h, false_or]
      split <;> simp

theorem nodup_set {es : List (String × Number)} (h : (es.map Prod.fst).Nodup) (name : String)
    (value : Number) : ((set name value es).map Prod.fst).Nodup := by
  rw [map_fst_set]
  split
  · exact h
  · rename_i hn
    exact List.nodup_append.mpr ⟨h, by simp, fun a ha b hb => by simp at hb; exact fun e => hn (hb ▸ e ▸ ha)⟩

def insert (b : Bindings) (name : String) (value : Number) : Bindings :=
  ⟨set name value b.entries, nodup_set b.nodup name value⟩

def ofList (es : List (String × Number)) : Bindings := es.foldl (fun b e => b.insert e.1 e.2) empty

theorem lookup_entry (x : String) (e : String × Number) (es : List (String × Number)) :
    (e :: es).lookup x = if x = e.1 then some e.2 else es.lookup x := by
  obtain ⟨k, v⟩ := e
  rw [List.lookup_cons]
  by_cases h : x = k
  · rw [beq_iff_eq.mpr h, if_pos h]
  · rw [beq_eq_false_iff_ne.mpr h, if_neg h]

theorem lookup_set (name : String) (value : Number) (es : List (String × Number)) (x : String) :
    (set name value es).lookup x = if x = name then some value else es.lookup x := by
  induction es with
  | nil => rw [set, lookup_entry]
  | cons e es ih =>
    by_cases hn : e.1 = name
    · rw [set, if_pos hn, lookup_entry, lookup_entry, hn]
      split <;> rfl
    · rw [set, if_neg hn, lookup_entry, lookup_entry, ih]
      by_cases hx : x = e.1
      · rw [if_pos hx, if_pos hx, if_neg (hx ▸ hn)]
      · rw [if_neg hx, if_neg hx]

theorem lookup_insert (b : Bindings) (name : String) (value : Number) (x : String) :
    (b.insert name value).lookup x = if x = name then some value else b.lookup x :=
  lookup_set name value b.entries x

theorem names_insert (b : Bindings) (name : String) (value : Number) :
    (b.insert name value).names = if name ∈ b.names then b.names else b.names ++ [name] :=
  map_fst_set name value b.entries

theorem lookup_eq_none {x : String} {es : List (String × Number)} (h : x ∉ es.map Prod.fst) :
    es.lookup x = none := by
  rw [List.lookup_eq_none_iff]
  intro e he
  rw [bne_iff_ne]
  rintro rfl
  exact h (List.mem_map_of_mem he)

theorem entries_inj {es es' : List (String × Number)} (nodup : (es.map Prod.fst).Nodup)
    (names : es'.map Prod.fst = es.map Prod.fst) (h : ∀ x, es'.lookup x = es.lookup x) : es' = es := by
  induction es generalizing es' with
  | nil => exact List.map_eq_nil_iff.mp names
  | cons e es ih =>
    obtain ⟨e', es', rfl, name, names⟩ := List.map_eq_cons_iff.mp names
    obtain ⟨fresh, nodup⟩ := List.nodup_cons.mp nodup
    have value := h e.1
    rw [lookup_entry, lookup_entry, if_pos name.symm, if_pos rfl] at value
    have rest : ∀ x, es'.lookup x = es.lookup x := by
      intro x
      by_cases hx : x = e.1
      · rw [hx, lookup_eq_none fresh, lookup_eq_none (names ▸ fresh)]
      · have hother := h x
        rwa [lookup_entry, lookup_entry, if_neg hx, if_neg (name ▸ hx)] at hother
    rw [ih nodup names rest, Prod.ext name (Option.some.inj value)]

/-- What is bound, and in which order, is all there is. -/
theorem ext_lookup {b b' : Bindings} (names : b'.names = b.names) (h : ∀ x, b'.lookup x = b.lookup x) :
    b' = b := by
  obtain ⟨es, nodup⟩ := b
  obtain ⟨es', nodup'⟩ := b'
  obtain rfl : es' = es := entries_inj nodup names h
  rfl

end Bindings

inductive Policy
  | reject
  | default (value : Number)
deriving DecidableEq

structure Variables where
  bindings : Bindings
  policy : Policy

namespace Variables

def empty : Variables := ⟨.empty, .reject⟩

def lookup (vars : Variables) (name : String) : Option Number := vars.bindings.lookup name

def get (vars : Variables) (name : String) : Except Failure Number :=
  match vars.lookup name, vars.policy with
  | some v, _ => .ok v
  | none, .default v => .ok v
  | none, .reject => .error (.unknownVariable name)

def put (vars : Variables) (name : String) (value : Number) : Variables :=
  { vars with bindings := vars.bindings.insert name value }

theorem lookup_put (vars : Variables) (name : String) (value : Number) (x : String) :
    (vars.put name value).lookup x = if x = name then some value else vars.lookup x :=
  vars.bindings.lookup_insert name value x

theorem policy_put (vars : Variables) (name : String) (value : Number) :
    (vars.put name value).policy = vars.policy := rfl

theorem get_put (vars : Variables) (name : String) (value : Number) (x : String) :
    (vars.put name value).get x = if x = name then .ok value else vars.get x := by
  unfold get
  rw [lookup_put, policy_put]
  by_cases h : x = name <;> simp [h]

end Variables

end Turtle
