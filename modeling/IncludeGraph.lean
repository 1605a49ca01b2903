import IncludeGraph.Python.Str
import IncludeGraph.Python.Path
import IncludeGraph.Python.Dict
import IncludeGraph.Finder.Node
import IncludeGraph.Finder.Discover
import IncludeGraph.Finder.Parse
import IncludeGraph.Finder.Resolve
import IncludeGraph.Finder.Build
import IncludeGraph.Finder.Walk
import IncludeGraph.Finder.Reach
import IncludeGraph.Finder.Determinism
import IncludeGraph.Finder.Pipeline
import IncludeGraph.Finder.Report
import IncludeGraph.Finder.Pattern
import IncludeGraph.Finder.Rerun
import IncludeGraph.Circular.Cycles
import IncludeGraph.Circular.Elementary
import IncludeGraph.Circular.Calls
import IncludeGraph.Circular.Checker
import IncludeGraph.Circular.Edges
import IncludeGraph.Circular.Report
import IncludeGraph.Circular.Scan
