import Kirara.Channels

namespace Kirara.ConfigValues

open Kirara.Channels

/-- A nested configuration value. The scalars other than strings are opaque. -/
inductive Value (α : Type) where
  | atom (a : α)
  | text (t : Text)
  | list (items : List (Value α))
  | tuple (items : List (Value α))
  | dict (entries : List (Text × Value α))

variable {α : Type}

@[elab_as_elim]
theorem value_induction {P : Value α → Prop} (atom : ∀ a, P (.atom a)) (text : ∀ t, P (.text t))
    (list : ∀ items, (∀ v ∈ items, P v) → P (.list items))
    (tuple : ∀ items, (∀ v ∈ items, P v) → P (.tuple items))
    (dict : ∀ entries, (∀ e ∈ entries, P e.2) → P (.dict entries)) (v : Value α) : P v :=
  @Value.rec α P (fun items => ∀ v ∈ items, P v) (fun entries => ∀ e ∈ entries, P e.2)
    (fun e => P e.2) atom text list tuple dict (fun _ h => (nomatch h))
    (fun _ _ hv hvs u hu => (List.mem_cons.mp hu).elim (fun h => h ▸ hv) (hvs u))
    (fun _ h => (nomatch h))
    (fun _ _ he hes u hu => (List.mem_cons.mp hu).elim (fun h => h ▸ he) (hes u))
    (fun _ _ hv => hv) v

end Kirara.ConfigValues
