import OpenedExtraction.PyText
import OpenedExtraction.OrderedDict
import OpenedExtraction.Nesting
import OpenedExtraction.NestedGroups
import OpenedExtraction.PreprocessorMap
import OpenedExtraction.ExtractAndDump
import OpenedExtraction.RegionGuards
import OpenedExtraction.CRegions
import OpenedExtraction.RegionMatching
import OpenedExtraction.Branches
import OpenedExtraction.CallGraph
import OpenedExtraction.CallGraphDocument
import OpenedExtraction.HeaderHistory
import OpenedExtraction.GraphLines
import OpenedExtraction.FunctionTable
import OpenedExtraction.Extraction
import OpenedExtraction.DumpedBlocks
import OpenedExtraction.InsertedLines
import OpenedExtraction.RoundTrip
import OpenedExtraction.Maps
import OpenedExtraction.MapAttribution
import OpenedExtraction.Cpp
import OpenedExtraction.CppLexing
import OpenedExtraction.CppLines
import OpenedExtraction.CppRows
import OpenedExtraction.CppTables
import OpenedExtraction.Conditions
import OpenedExtraction.AddDefines
import OpenedExtraction.MacroBlocks
import OpenedExtraction.MacroTables
import OpenedExtraction.Headers
import OpenedExtraction.Includes
import OpenedExtraction.CopyHeaders
import OpenedExtraction.Pieces
import OpenedExtraction.OwnLines
import OpenedExtraction.DefineRuns
import OpenedExtraction.Extractor
import OpenedExtraction.Documents
import OpenedExtraction.AiComments
