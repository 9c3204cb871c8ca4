set_option autoImplicit false

namespace MachineLang

/-- The events keep the order and the repetitions they were written with. -/
structure Permission where
  interface : Option String
  events : List String
  deriving DecidableEq

namespace Permission

def allows (p : Permission) (event : String) : Bool := p.events.contains event

/-- Puts an event into an increasing list, where an event already present stays single. -/
def insertEvent (event : String) : List String → List String
  | [] => [event]
  | first :: rest =>
    if event < first then event :: first :: rest
    else if event = first then first :: rest
    else first :: insertEvent event rest

/-- The allowed events in increasing order of their code points, each once. -/
def eventSet (p : Permission) : List String := p.events.foldr insertEvent []

def canonical (p : Permission) : Permission := ⟨none, p.eventSet⟩

def increasing : List String → Bool
  | first :: second :: rest => first < second && increasing (second :: rest)
  | _ => true

def isCanonical (p : Permission) : Bool := p.interface.isNone && increasing p.events

/-- A reference may be stored where fewer events can be sent than it allows. -/
def accepts (target source : Permission) : Bool := target.events.all source.allows

theorem mem_insertEvent (event x : String) (events : List String) :
    x ∈ insertEvent event events ↔ x = event ∨ x ∈ events := by
  induction events with
  | nil => simp [insertEvent]
  | cons first rest ih =>
    unfold insertEvent
    split
    · simp
    · split
      · rename_i h
        subst h
        simp
      · simp only [List.mem_cons, ih]
        grind

theorem mem_eventSet (p : Permission) (event : String) :
    event ∈ p.eventSet ↔ event ∈ p.events := by
  unfold eventSet
  induction p.events with
  | nil => simp
  | cons first rest ih => simp [mem_insertEvent, ih]

theorem allows_iff (p : Permission) (event : String) : p.allows event ↔ event ∈ p.events := by
  simp [allows]

theorem pairwise_insertEvent (event : String) {events : List String}
    (h : events.Pairwise (· < ·)) : (insertEvent event events).Pairwise (· < ·) := by
  induction events with
  | nil => simp [insertEvent]
  | cons first rest ih =>
    obtain ⟨hfirst, hrest⟩ := List.pairwise_cons.1 h
    unfold insertEvent
    split
    · rename_i hlt
      refine List.pairwise_cons.2 ⟨fun x hx => ?_, h⟩
      rcases List.mem_cons.1 hx with rfl | hx
      · exact hlt
      · exact String.lt_trans hlt (hfirst x hx)
    · rename_i hlt
      split
      · exact h
      · rename_i hne
        refine List.pairwise_cons.2 ⟨fun x hx => ?_, ih hrest⟩
        rcases (mem_insertEvent event x rest).1 hx with rfl | hx
        · exact Std.lt_of_le_of_ne (Std.not_lt.1 hlt) (Ne.symm hne)
        · exact hfirst x hx

theorem eventSet_pairwise (p : Permission) : p.eventSet.Pairwise (· < ·) := by
  unfold eventSet
  induction p.events with
  | nil => exact List.Pairwise.nil
  | cons first rest ih => exact pairwise_insertEvent first ih

theorem increasing_iff (events : List String) :
    increasing events ↔ events.Pairwise (· < ·) := by
  induction events with
  | nil => simp [increasing]
  | cons first rest ih =>
    cases rest with
    | nil => simp [increasing]
    | cons second rest =>
      simp only [increasing, Bool.and_eq_true, decide_eq_true_eq, ih]
      constructor
      · rintro ⟨hlt, hrest⟩
        refine List.pairwise_cons.2 ⟨fun x hx => ?_, hrest⟩
        rcases List.mem_cons.1 hx with rfl | hx
        · exact hlt
        · exact String.lt_trans hlt ((List.pairwise_cons.1 hrest).1 x hx)
      · intro h
        obtain ⟨hfirst, hrest⟩ := List.pairwise_cons.1 h
        exact ⟨hfirst second List.mem_cons_self, hrest⟩

end Permission
end MachineLang
