import Treewalk.Token.Description
import Treewalk.Tree.Outline
import Treewalk.Scope.Forest
import Treewalk.Main
import Treewalk.Proofs.Reading.Room
import Treewalk.Proofs.Pieces
import Treewalk.Proofs.Sentence
import Treewalk.Proofs.Sentence.Exact
import Treewalk.Proofs.Lexeme
import Treewalk.Proofs.Lexeme.Exact
import Treewalk.Proofs.Literals
import Treewalk.Proofs.Reading.EndMark
import Treewalk.Proofs.WellFormed
import Treewalk.Proofs.WellFormed.Walks
import Treewalk.Proofs.WellFormed.Parsed
import Treewalk.Proofs.Semantics
import Treewalk.Proofs.Semantics.Shown
import Treewalk.Proofs.Semantics.Exact
import Treewalk.Proofs.Names
import Treewalk.Proofs.Safety
import Treewalk.Proofs.Names.Declared
import Treewalk.Proofs.Blame
import Treewalk.Proofs.Gate
import Treewalk.Proofs.Slots
import Treewalk.Proofs.Prompt
import Treewalk.Proofs.SharedScopes
import Treewalk.Proofs.Names.Checked
import Treewalk.Proofs.Sentence.Loose
import Treewalk.Proofs.Reading.Failure
import Treewalk.Proofs.Reading.Lookahead
import Treewalk.Proofs.Recovery
import Treewalk.Proofs.FirstError
import Treewalk.Proofs.Sentence.Prefix
import Treewalk.Proofs.Sentence.Targets
import Treewalk.Proofs.Scanning.Lines
import Treewalk.Proofs.Scanning.Rejoined
import Treewalk.Proofs.Scanning.Distributes
import Treewalk.Proofs.Names.Free
import Treewalk.Proofs.Names.Dependence
import Treewalk.Proofs.Outline.Unique
