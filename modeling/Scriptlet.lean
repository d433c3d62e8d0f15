import Scriptlet.Diagnostic.Outline
import Scriptlet.Main
import Scriptlet.Proofs.Artifact
import Scriptlet.Proofs.Diagnostic.Excerpt
import Scriptlet.Proofs.Folding.Evaluation
import Scriptlet.Proofs.Folding.Negation
import Scriptlet.Proofs.Folding.Skeleton
import Scriptlet.Proofs.Script.Lines
import Scriptlet.Proofs.Script.Resolution
import Scriptlet.Proofs.Script.Session
import Scriptlet.Proofs.Script.Visibility
import Scriptlet.Proofs.Script.Walk
import Scriptlet.Proofs.Script.WideNumbers
import Scriptlet.Proofs.SyntaxTree.Excerpt
import Scriptlet.Proofs.SyntaxTree.Lines
import Scriptlet.Proofs.SyntaxTree.Progress
import Scriptlet.Proofs.SyntaxTree.Table
import Scriptlet.Proofs.SyntaxTree.Writing
import Scriptlet.Proofs.Typing.Annotation
import Scriptlet.Proofs.Typing.Frames
import Scriptlet.Token.Cursor
