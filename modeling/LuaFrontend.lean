import LuaFrontend.Grammar.Chunk
import LuaFrontend.Profile
import LuaFrontend.Token.TokenCursor
import LuaFrontend.Tree.Outline
import LuaFrontend.Proofs.ChunkReading
import LuaFrontend.Proofs.LayoutInvariance
import LuaFrontend.Proofs.RoundTrip
import LuaFrontend.Proofs.LexemeLineEnds
import LuaFrontend.Proofs.EarlyEnd
import LuaFrontend.Proofs.SameInput
import LuaFrontend.Proofs.LevelsNeeded
import LuaFrontend.Proofs.FeatureSwitches
import LuaFrontend.Proofs.NestingLimit
import LuaFrontend.Proofs.JoinedTexts
import LuaFrontend.Proofs.StatementLoop
import LuaFrontend.Proofs.JoinedPrograms
import LuaFrontend.Proofs.RejoinedTokens
import LuaFrontend.Proofs.FirstError
import LuaFrontend.Proofs.CursorAnswers
import LuaFrontend.Proofs.ContextualGoto
import LuaFrontend.Proofs.EventTrace
import LuaFrontend.Proofs.OpenLevels
import LuaFrontend.Proofs.AccessInRange
import LuaFrontend.Proofs.AssignmentForesight
import LuaFrontend.Proofs.BlockForesight
import LuaFrontend.Proofs.CheckedTargets
import LuaFrontend.Proofs.ProgramForesight
import LuaFrontend.Proofs.TextCut
import LuaFrontend.Proofs.EarlierFault
import LuaFrontend.Proofs.ViablePrefix
import LuaFrontend.Proofs.OutlineRules
import LuaFrontend.Proofs.ProperExpressions
import LuaFrontend.Proofs.ProperStatements
import LuaFrontend.Proofs.TreeShape
import LuaFrontend.Proofs.NumberLanguage
import LuaFrontend.Proofs.NumberLookahead
import LuaFrontend.Proofs.NumberReading
import LuaFrontend.Proofs.NumberWords
import LuaFrontend.Proofs.NumericLiterals
import LuaFrontend.Proofs.ExactNesting
import LuaFrontend.Proofs.QuotedStrings
import LuaFrontend.Proofs.LexerPartition
import LuaFrontend.Proofs.LexerPositions
import LuaFrontend.Proofs.LexerLongBrackets
import LuaFrontend.Proofs.NodeCounts
import LuaFrontend.Proofs.LinearWork
import LuaFrontend.Proofs.OpenProductions
import LuaFrontend.Proofs.LateTargetFaults
import LuaFrontend.Proofs.TreeHeight
import LuaFrontend.Proofs.ParserScript
import LuaFrontend.Proofs.ErrorLocality
