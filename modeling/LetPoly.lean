import LetPoly.Expr.Outline
import LetPoly.Main
import LetPoly.Proofs.Acyclic
import LetPoly.Proofs.Unifier
import LetPoly.Proofs.Recording
import LetPoly.Proofs.Procedure
import LetPoly.Proofs.Source
import LetPoly.Proofs.Typing
import LetPoly.Proofs.Session
import LetPoly.Proofs.Soundness
import LetPoly.Proofs.Completeness
import LetPoly.Proofs.Safety
import LetPoly.Proofs.Area
import LetPoly.Proofs.Footprint
import LetPoly.Proofs.Generalization
import LetPoly.Proofs.History
import LetPoly.Proofs.Scoping
import LetPoly.Proofs.Readback
import LetPoly.Proofs.Refinement
import LetPoly.Proofs.Adequacy
import LetPoly.Proofs.Likeness
import LetPoly.Proofs.Heredity
import LetPoly.Proofs.Limit
import LetPoly.Proofs.Correspondence
import LetPoly.Proofs.Agreement
import LetPoly.Proofs.Nesting
import LetPoly.Proofs.Operations
import LetPoly.Proofs.Recursion
import LetPoly.Proofs.Termination
import LetPoly.Proofs.Reuse
import LetPoly.Proofs.Renaming
import LetPoly.Proofs.Symmetry
import LetPoly.Proofs.FirstConflict
import LetPoly.Proofs.BoundNames
import LetPoly.Proofs.Replacement
import LetPoly.Proofs.Expansion
import LetPoly.Proofs.Instantiation
import LetPoly.Proofs.Reordering
import LetPoly.Proofs.Shift
import LetPoly.Proofs.Independence
import LetPoly.Proofs.Relevance
import LetPoly.Proofs.Absorption
import LetPoly.Proofs.TypeText
import LetPoly.Proofs.ExprText
