import Bajiru.Linkjiru.RingRefinement
import Bajiru.Linkjiru.RingCursor
import Bajiru.Linkjiru.AnalysisTick
import Bajiru.Linkjiru.AnalysisLifecycle
import Bajiru.Linkjiru.SamplePlayback
import Bajiru.Linkjiru.VtsReplies
import Bajiru.Linkjiru.VtsRetries
import Bajiru.Linkjiru.VtsStreams
import Bajiru.Linkjiru.VtsRetryPolicy
import Bajiru.Linkjiru.VtsReconnect
import Bajiru.Linkjiru.WindowPacing
import Bajiru.Linkjiru.HopPace
import Bajiru.Linkjiru.SteadySignal
import Bajiru.Linkjiru.DetectCell
import Bajiru.Linkjiru.DeadModel
import Bajiru.Linkjiru.DueWindow
import Bajiru.NnModel.Retention
import Bajiru.NnModel.Trainer
import Bajiru.NnModel.LRScheduler
import Bajiru.NnModel.Eval
import Bajiru.NnModel.MapLabels
import Bajiru.NnModel.LabelsToScores
import Bajiru.NnModel.Preprocessing
import Bajiru.NnModel.DatasetItems
import Bajiru.NnModel.AudioEncoder
import Bajiru.DataAugment.PsolaUnity
import Bajiru.DataAugment.Viterbi
import Bajiru.DataAugment.Augmenter
import Bajiru.DataAugment.TransitionTriangle
import Bajiru.DataAugment.TroughProbs
import Bajiru.DataAugment.Yin
import Bajiru.BajiRecognition.Process
import Bajiru.Deque
import Bajiru.Lock
import Bajiru.PitchMath.Features
import Bajiru.PitchMath.Listener
import Bajiru.PitchMath.Train
import Bajiru.DataAugment.Frame
import Bajiru.DataAugment.Noise
import Bajiru.DataAugment.PitchModel
import Bajiru.DataAugment.Pyin
import Bajiru.NnModel.Resume
import Bajiru.NnModel.ResumeCheckpoints
import Bajiru.NnModel.TrainingTargets
import Bajiru.DataAugment.Resample
import Bajiru.Linkjiru.PageLock
import Bajiru.Linkjiru.Prototype
import Bajiru.NnModel.AudioClassifier
import Bajiru.Linkjiru.DetectState
