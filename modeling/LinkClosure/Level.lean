import LinkClosure.Causes
import LinkClosure.Linkage

/-!
# Levels

A level says how strongly two variables are related, from "the same object" to
"not at all". Levels compare by rank, a low rank being strong; a delay stands
for a relationship that is not known yet. Equality is finer than rank: it
includes the linkage and the causes.
-/

set_option autoImplicit false

namespace LinkClosure

inductive Level where
  | staticallyAssigned
  | assigned
  | dependent (linkage : Linkage)
  | commonHidden (linkage : Linkage)
  | independent
  | delayed (causes : Causes)
  deriving DecidableEq

namespace Level

def rank : Level → Int
  | staticallyAssigned => 0
  | assigned => 1
  | dependent _ => 2
  | commonHidden _ => 4
  | independent => 5
  | delayed _ => -1

/-- Sharing hidden content takes at least one link. -/
def ofHiddenContent (m : Linkage) : Except LinkError Level :=
  if m.isEmpty then .error .emptyHiddenContent else .ok (.commonHidden m)

def isDelayed : Level → Bool
  | delayed _ => true
  | _ => false

def isDependent : Level → Bool
  | dependent _ => true
  | _ => false

def isCommonHidden : Level → Bool
  | commonHidden _ => true
  | _ => false

/-- The two variables are the same object. -/
def isAssignment : Level → Bool
  | staticallyAssigned => true
  | assigned => true
  | _ => false

def linkage? : Level → Option Linkage
  | dependent m => some m
  | commonHidden m => some m
  | _ => none

def hasLinks (l : Level) : Bool := l.linkage?.any fun m => !m.isEmpty

/-- Combines two alternative relationships of the same variables. Delays pool their
causes, give way to static assignment only and win over everything else; two
linkages of one kind are merged; otherwise the stronger level stays. -/
def min : Level → Level → Level
  | delayed c, delayed d => delayed (c.merge d)
  | delayed _, staticallyAssigned => staticallyAssigned
  | staticallyAssigned, delayed _ => staticallyAssigned
  | delayed c, _ => delayed c
  | _, delayed d => delayed d
  | commonHidden m, commonHidden n => commonHidden (m.merge n)
  | dependent m, dependent n => dependent (m.merge n)
  | a, b => if b.rank < a.rank then b else a

def render : Level → String
  | delayed _ => "<delayed>"
  | l =>
    match l.linkage? with
    | some m => if m.isEmpty then bare l else m.label l.rank
    | none => bare l
where
  bare (l : Level) : String := "-" ++ toString l.rank ++ "-"

/-- The full label of a level with links, the bare rank of any other. -/
def renderShort (l : Level) : String := if l.hasLinks then l.render else toString l.rank

/-- Two different levels of shared hidden content have no maximum. -/
structure Clash where
  left : Level
  right : Level
  deriving DecidableEq

def Clash.message (c : Clash) : String :=
  "max of two different common hidden content levels: " ++ c.left.render ++ " vs " ++
    c.right.render

/-- The weaker of two relationships in sequence; a delay absorbs the other. -/
def max (a b : Level) : Except Clash Level :=
  if a.isDelayed then .ok a
  else if b.isDelayed then .ok b
  else if a.rank < b.rank then .ok b
  else if a.isCommonHidden && b.isCommonHidden && a != b then .error ⟨a, b⟩
  else .ok a

def reverse : Level → Level
  | dependent m => dependent m.reverse
  | commonHidden m => commonHidden m.reverse
  | l => l

/-- Through shared hidden content a modification travels only along the single
mutable link that starts at the wildcard. -/
def allowsModification : Level → Bool
  | commonHidden m =>
    m.size == 1 && m.entries.all fun e => e.1.isWildcard && e.2.isMutable
  | _ => true

def sourceIsWildcard (l : Level) : Bool := l.linkage?.any Linkage.sourceIsWildcard

def targetIsWildcard (l : Level) : Bool := l.linkage?.any Linkage.targetIsWildcard

/-- Applies to linkages that have a link; all else stays as it is. -/
def mapLinkage (f : Linkage → Linkage) : Level → Level
  | dependent m => dependent (if m.isEmpty then m else f m)
  | commonHidden m => commonHidden (if m.isEmpty then m else f m)
  | l => l

def correct (c : Correction) : Level → Level := mapLinkage (Linkage.correct c)

def nestSource (p : Int) : Level → Level := mapLinkage (Linkage.nestSource p)

def nestTarget (p : Int) : Level → Level := mapLinkage (Linkage.nestTarget p)

def toCommonHidden : Level → Level
  | dependent m => commonHidden m
  | l => l

end Level

end LinkClosure
