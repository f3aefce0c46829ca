import Satf.Sort.Independence
import Satf.Sort.Copying
import Satf.Sort.Comparisons
import Satf.Measure.Conversions
import Satf.Driver.DataSets
import Satf.Driver.Completion
import Satf.Program.Plotted
import Satf.Future.Delivery
import Satf.ThreadPool.Order
import Satf.ThreadPool.TaskAdaptors
import Satf.ThreadPool.Instance
import Satf.ThreadPool.LastHandle
import Satf.Scheduled.Waiting
import Satf.Log.Runs
import Satf.Script.LastLog
import Satf.Script.Maxima
import Satf.Script.PlotLine
